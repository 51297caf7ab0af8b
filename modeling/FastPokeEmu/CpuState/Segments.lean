import FastPokeEmu.CpuState.Records
import Mathlib.Data.Nat.Bitwise

/-! Segment descriptors: how the kernel writes them (`set_gdt_entry` of `loader.c`) and how a
dump is searched for them (`parse_seg` of `cpustate_x86.py`).
Decoding inverts encoding, but the last entry of a table is refused.
-/

namespace FastPokeEmu.CpuState

/-- `seg_t`, with the bit-fields that the kernel assigns. -/
structure SegT where
  limit_0_15 : BitVec 16
  base_0_15 : BitVec 16
  base_16_23 : BitVec 8
  access : BitVec 8
  limit_16_19 : BitVec 4
  attr : BitVec 4
  base_24_31 : BitVec 8

def setGdtEntry (base limit : BitVec 32) (access attr : BitVec 8) : SegT where
  base_0_15 := (base &&& 0xffff#32).setWidth 16
  base_16_23 := ((base >>> 16) &&& 0xff#32).setWidth 8
  base_24_31 := ((base >>> 24) &&& 0xff#32).setWidth 8
  limit_0_15 := (limit &&& 0xffff#32).setWidth 16
  limit_16_19 := ((limit >>> 16) &&& 0xff#32).setWidth 4
  access
  attr := attr.setWidth 4

/-- The packed structure in memory; the first of two bit-fields is in the low bits. -/
def SegT.bytes (seg : SegT) : List UInt8 :=
  [.ofBitVec (seg.limit_0_15.setWidth 8), .ofBitVec ((seg.limit_0_15 >>> 8).setWidth 8),
    .ofBitVec (seg.base_0_15.setWidth 8), .ofBitVec ((seg.base_0_15 >>> 8).setWidth 8),
    .ofBitVec seg.base_16_23, .ofBitVec seg.access,
    .ofBitVec (seg.attr ++ seg.limit_16_19), .ofBitVec seg.base_24_31]

/-- `GDT_ENTRY` -/
def gdtEntry : Nat := 53

/-- The register that `set_gdt` loads, and after it `init`: the table's address, or its alias
in the extended range, and the limit.
-/
structure GdtLoaded (gdtr : DtableReg) (phGdt : Nat) : Prop where
  base : gdtr.base = phGdt ∨ gdtr.base = 0x1000000 ||| phGdt
  /-- The kernel is loaded into the first four megabytes. -/
  low : phGdt < 0x400000

/-- `struct.unpack("I", ..)` -/
def unpackI (a b c d : UInt8) : Nat :=
  a.toNat + 0x100 * b.toNat + 0x10000 * c.toNat + 0x1000000 * d.toNat

/-- The fields of a descriptor's eight bytes. A shorter slice raises an exception. -/
def parseDescriptor (sel : Nat) : List UInt8 → Option SegmentReg
  | [d0, d1, d2, d3, d4, d5, d6, d7] =>
    some
      { base := unpackI d2 d3 d4 d7
        selector := sel
        type := d5.toNat &&& 0xf
        s := (d5.toNat >>> 4) &&& 0x1
        dpl := (d5.toNat >>> 5) &&& 0x3
        present := (d5.toNat >>> 7) &&& 0x1
        avl := (d6.toNat >>> 4) &&& 0x1
        l := (d6.toNat >>> 5) &&& 0x1
        db := (d6.toNat >>> 6) &&& 0x1
        g := (d6.toNat >>> 7) &&& 0x1
        limit := unpackI d0 d1 (.ofNat (d6.toNat &&& 0xf)) 0
        unusable := 0 }
  | _ => none

def parseSeg (d : Dump) (i sel : Nat) : Option SegmentReg := do
  let cpu ← d.cpus[i]?
  let gdtBase := cpu.sregsState.gdtr.base &&& 0x0ffffff
  let gdtLimit := cpu.sregsState.gdtr.limit
  let gdtIdx := sel >>> 3
  if gdtIdx * 8 ≤ gdtLimit ∧ gdtIdx * 8 + 8 < gdtLimit then
    let addr := gdtIdx * 8 + gdtBase
    parseDescriptor sel ((d.mem.take (addr + 8)).drop addr)
  else none

/-- The register with the values that an entry was written with. -/
def segmentOf (base : BitVec 32) (limit : BitVec 20) (access : BitVec 8) (attr : BitVec 4)
    (sel : Nat)
    : SegmentReg where
  base := base.toNat
  limit := limit.toNat
  selector := sel
  type := (access.extractLsb' 0 4).toNat
  s := (access.extractLsb' 4 1).toNat
  dpl := (access.extractLsb' 5 2).toNat
  present := (access.extractLsb' 7 1).toNat
  avl := (attr.extractLsb' 0 1).toNat
  l := (attr.extractLsb' 1 1).toNat
  db := (attr.extractLsb' 2 1).toNat
  g := (attr.extractLsb' 3 1).toNat
  unusable := 0

theorem field_toNat {w : Nat} (x : BitVec w) (start len : Nat)
    : (x.extractLsb' start len).toNat = (x.toNat >>> start) &&& (2 ^ len - 1) := by
  rw [BitVec.extractLsb'_toNat, Nat.and_two_pow_sub_one_eq_mod]

theorem assigned_toNat (x : BitVec 32) (start len : Nat) {width : Nat} (fits : len < 32)
    : (((x >>> start) &&& BitVec.ofNat 32 (2 ^ len - 1)).setWidth width).toNat
      = x.toNat / 2 ^ start % 2 ^ len % 2 ^ width := by
  have mask : (2 ^ len - 1) % 2 ^ 32 = 2 ^ len - 1 := by
    apply Nat.mod_eq_of_lt
    have := Nat.pow_lt_pow_right (a := 2) (by decide) fits
    omega
  rw [BitVec.toNat_setWidth, BitVec.toNat_and, BitVec.toNat_ofNat, mask,
    Nat.and_two_pow_sub_one_eq_mod, BitVec.toNat_ushiftRight, Nat.shiftRight_eq_div_pow]

theorem append_toNat (attr lim : BitVec 4) : (attr ++ lim).toNat = attr.toNat * 16 + lim.toNat := by
  rw [BitVec.toNat_append, ← Nat.shiftLeft_add_eq_or_of_lt lim.isLt, Nat.shiftLeft_eq]

theorem attr_toNat (attr lim : BitVec 4) (k : Nat)
    : ((UInt8.ofBitVec (attr ++ lim)).toNat >>> (4 + k)) &&& 0x1
      = (attr.extractLsb' k 1).toNat := by
  have small := lim.isLt
  have high : (attr.toNat * 16 + lim.toNat) >>> 4 = attr.toNat := by
    rw [Nat.shiftRight_eq_div_pow]
    omega
  rw [field_toNat, UInt8.toNat_ofBitVec, Nat.shiftRight_add, append_toNat, high]
  rfl

section

variable (base : BitVec 32) (limit : BitVec 20) (access : BitVec 8) (attr : BitVec 4)

theorem unpackI_base (seg : SegT) (low : seg.base_0_15.toNat = base.toNat % 2 ^ 16)
    (middle : seg.base_16_23.toNat = base.toNat / 2 ^ 16 % 2 ^ 8)
    (high : seg.base_24_31.toNat = base.toNat / 2 ^ 24 % 2 ^ 8)
    : unpackI (.ofBitVec (seg.base_0_15.setWidth 8)) (.ofBitVec ((seg.base_0_15 >>> 8).setWidth 8))
        (.ofBitVec seg.base_16_23) (.ofBitVec seg.base_24_31)
      = base.toNat := by
  have small := base.isLt
  simp only [unpackI, UInt8.toNat_ofBitVec, BitVec.toNat_setWidth, BitVec.toNat_ushiftRight,
    Nat.shiftRight_eq_div_pow, low, middle, high]
  omega

theorem unpackI_limit (seg : SegT) (low : seg.limit_0_15.toNat = limit.toNat % 2 ^ 16)
    (high : seg.limit_16_19.toNat = limit.toNat / 2 ^ 16 % 2 ^ 4)
    : unpackI (.ofBitVec (seg.limit_0_15.setWidth 8))
        (.ofBitVec ((seg.limit_0_15 >>> 8).setWidth 8))
        (.ofNat ((UInt8.ofBitVec (seg.attr ++ seg.limit_16_19)).toNat &&& 0xf)) 0
      = limit.toNat := by
  have small := limit.isLt
  have mask : (UInt8.ofBitVec (seg.attr ++ seg.limit_16_19)).toNat &&& 0xf
      = seg.limit_16_19.toNat := by
    have bits := Nat.and_two_pow_sub_one_eq_mod (seg.attr ++ seg.limit_16_19).toNat 4
    have smaller := seg.limit_16_19.isLt
    rw [append_toNat] at bits
    rw [UInt8.toNat_ofBitVec, append_toNat]
    refine bits.trans ?_
    omega
  rw [mask, high]
  simp only [unpackI, UInt8.toNat_ofBitVec, BitVec.toNat_setWidth, BitVec.toNat_ushiftRight,
    Nat.shiftRight_eq_div_pow, low, UInt8.toNat_ofNat', UInt8.toNat_zero]
  omega

/-- All fields come back. -/
theorem parseDescriptor_bytes (sel : Nat)
    : parseDescriptor sel (setGdtEntry base (limit.setWidth 32) access (attr.setWidth 8)).bytes
      = some (segmentOf base limit access attr sel) := by
  have narrow : (attr.setWidth 8).setWidth 4 = attr := by
    apply BitVec.eq_of_toNat_eq
    have small := attr.isLt
    simp only [BitVec.toNat_setWidth]
    omega
  have wide : (limit.setWidth 32).toNat = limit.toNat := by
    have small := limit.isLt
    rw [BitVec.toNat_setWidth]
    omega
  have same : (setGdtEntry base (limit.setWidth 32) access (attr.setWidth 8)).attr = attr := narrow
  rw [SegT.bytes, parseDescriptor, segmentOf, Option.some.injEq, SegmentReg.mk.injEq]
  refine ⟨?_, ?_, rfl, (field_toNat access 0 4).symm, (field_toNat access 7 1).symm,
    (field_toNat access 5 2).symm, ?_, (field_toNat access 4 1).symm, ?_, ?_, ?_, rfl⟩
  · apply unpackI_base
    · exact (assigned_toNat base 0 16 (by decide)).trans (by omega)
    · exact (assigned_toNat base 16 8 (by decide)).trans (by omega)
    · exact (assigned_toNat base 24 8 (by decide)).trans (by omega)
  · apply unpackI_limit
    · refine (assigned_toNat (limit.setWidth 32) 0 16 (by decide)).trans ?_
      rw [wide]
      omega
    · refine (assigned_toNat (limit.setWidth 32) 16 8 (by decide)).trans ?_
      rw [wide]
      omega
  · rw [same]
    exact attr_toNat attr _ 2
  · rw [same]
    exact attr_toNat attr _ 1
  · rw [same]
    exact attr_toNat attr _ 3
  · rw [same]
    exact attr_toNat attr _ 0

end

theorem GdtLoaded.masked {gdtr : DtableReg} {phGdt : Nat} (loaded : GdtLoaded gdtr phGdt)
    : gdtr.base &&& 0x0ffffff = phGdt := by
  have low := loaded.low
  have mask (x : Nat) : x &&& 0x0ffffff = x % 2 ^ 24 := Nat.and_two_pow_sub_one_eq_mod x 24
  rw [mask]
  rcases loaded.base with same | extended
  · rw [same]
    omega
  · have sum : 0x1000000 ||| phGdt = 0x1000000 + phGdt :=
      (Nat.two_pow_add_eq_or_of_lt (i := 24) (by omega) 1).symm
    rw [extended, sum]
    omega

section

variable {d : Dump} {i phGdt idx rpl : Nat} {cpu : Cpu}

/-- Selectors of entries inside the table are refused exactly if the entry is the last one;
for all others decoding inverts encoding.
-/
theorem parseSeg_setGdtEntry_iff (running : d.cpus[i]? = some cpu)
    (loaded : GdtLoaded cpu.sregsState.gdtr phGdt)
    (inside : 8 * idx + 8 ≤ cpu.sregsState.gdtr.limit) (low : rpl < 4) (base : BitVec 32)
    (limit : BitVec 20) (access : BitVec 8) (attr : BitVec 4)
    (written
      : (d.mem.take (phGdt + 8 * idx + 8)).drop (phGdt + 8 * idx)
        = (setGdtEntry base (limit.setWidth 32) access (attr.setWidth 8)).bytes)
    : parseSeg d i (8 * idx + rpl) = some (segmentOf base limit access attr (8 * idx + rpl))
      ↔ 8 * idx + 8 ≠ cpu.sregsState.gdtr.limit := by
  have index : (8 * idx + rpl) >>> 3 = idx := by
    rw [Nat.shiftRight_eq_div_pow]
    omega
  have address : idx * 8 + phGdt = phGdt + 8 * idx := by omega
  simp only [parseSeg, running, Option.bind_eq_bind, Option.bind_some, index, loaded.masked,
    address, written, parseDescriptor_bytes]
  constructor
  · intro found last
    rw [if_neg (by omega)] at found
    cases found
  · intro inner
    rw [if_pos (by omega)]

end

/-- A processor with the table at address 0, in the extended range. -/
def kernelCpu : Cpu :=
  { (default : Cpu) with
    sregsState :=
      { (default : SregsState) with gdtr := { base := 0x1000000, limit := 8 * (gdtEntry + 1) } } }

/-- The last two entries are flat code segments. -/
def flatCode : Dump where
  hdr := { (default : Header) with cpusno := 1 }
  cpus := [kernelCpu]
  mem := List.replicate (8 * 52) 0 ++ (setGdtEntry 0 0xfffff 0x9b 0xc).bytes
    ++ (setGdtEntry 0 0xfffff 0x9b 0xc).bytes
  cpus_valid := fun _ => rfl
  cpus_invalid := fun invalid => absurd invalid (by decide)
  mem_invalid := fun invalid => absurd invalid (by decide)

theorem parseSeg_setGdtEntry_iff_flatCode
    : parseSeg flatCode 0 (8 * 52 + 3) = some (segmentOf 0 0xfffff 0x9b 0xc (8 * 52 + 3)) := by
  have running : flatCode.cpus[0]? = some kernelCpu := rfl
  have loaded : GdtLoaded kernelCpu.sregsState.gdtr 0 := ⟨Or.inr rfl, by decide⟩
  apply (parseSeg_setGdtEntry_iff running loaded _ _ 0 0xfffff 0x9b 0xc _).mpr
  · decide
  · decide
  · decide
  · decide +kernel

/-- The selector of the last entry is refused. -/
theorem parseSeg_last_entry
    : (flatCode.mem.take (0 + 8 * gdtEntry + 8)).drop (0 + 8 * gdtEntry)
        = (setGdtEntry 0 0xfffff 0x9b 0xc).bytes
      ∧ 8 * gdtEntry + 8 ≤ kernelCpu.sregsState.gdtr.limit
      ∧ parseSeg flatCode 0 (8 * gdtEntry) = none := by
  refine ⟨by decide +kernel, by decide, rfl⟩

end FastPokeEmu.CpuState
