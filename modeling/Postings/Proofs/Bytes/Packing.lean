/-
Packed arrays as one long number.

Packing appends bytes whose number is the sum of the elements, each moved up by
its bit position; unpacking cuts bits out of the number of all bytes.  Both are
plain arithmetic on that number, so neighbours, straddled bytes and whatever
follows the array cannot matter.

* `bitsFrom_eq` — what is read from a bit on;
* `pack_eq` — what is appended: `ceil (n * bits / 8)` bytes of the packed number;
* `bitsFrom_number`, `unpackAt_pack` — every element is read back, whatever follows the array;
* `PackedArray.get_eq` — the elements of an array that holds packed bytes;
* `PackedArray.inside` — no element reaches past the bytes.
-/
import Postings.Bytes.Packed
import Postings.Proofs.Bytes.Digits

namespace Postings

namespace Packed

open Bytes

/-- The number whose bits are the elements one after the other. -/
def packedNumber (bits : Nat) : List Nat → Nat
  | [] => 0
  | value :: rest => value % 2 ^ bits + 2 ^ bits * packedNumber bits rest

theorem packedNumber_lt (bits : Nat) (values : List Nat) :
    packedNumber bits values < 2 ^ (values.length * bits) := by
  induction values with
  | nil => simp [packedNumber]
  | cons value rest ih =>
    have hv : value % 2 ^ bits < 2 ^ bits := Nat.mod_lt _ (Nat.two_pow_pos _)
    have hr : 2 ^ bits * (packedNumber bits rest + 1) ≤ 2 ^ bits * 2 ^ (rest.length * bits) :=
      Nat.mul_le_mul_left _ ih
    rw [packedNumber, List.length_cons, Nat.succ_mul, Nat.pow_add,
      Nat.mul_comm (2 ^ (rest.length * bits))]
    rw [Nat.mul_succ] at hr
    omega

/-- The bits of an element in the packed number. -/
theorem packedNumber_div_mod {bits position : Nat} {values : List Nat}
    (h : position < values.length) :
    packedNumber bits values / 2 ^ (position * bits) % 2 ^ bits
      = values[position] % 2 ^ bits := by
  induction values generalizing position with
  | nil => simp at h
  | cons value rest ih =>
    cases position with
    | zero =>
      rw [Nat.zero_mul, Nat.pow_zero, Nat.div_one, packedNumber, Nat.add_mul_mod_self_left,
        Nat.mod_mod, List.getElem_cons_zero]
    | succ position =>
      -- Dividing by `2 ^ bits` drops the head, which is below it.
      have hv : value % 2 ^ bits < 2 ^ bits := Nat.mod_lt _ (Nat.two_pow_pos _)
      rw [Nat.succ_mul, Nat.add_comm (position * bits), Nat.pow_add, ← Nat.div_div_eq_div_mul,
        packedNumber, Nat.add_mul_div_left _ _ (Nat.two_pow_pos _), Nat.div_eq_of_lt hv,
        Nat.zero_add, List.getElem_cons_succ]
      exact ih (Nat.lt_of_succ_lt_succ h)

/-! ### Cutting bits out of a number -/

/-- Bits below a cut do not depend on what is above the cut. -/
theorem mod_div_mod {value cut shift bits : Nat} (h : shift + bits ≤ cut) :
    value % 2 ^ cut / 2 ^ shift % 2 ^ bits = value / 2 ^ shift % 2 ^ bits := by
  apply Nat.eq_of_testBit_eq
  intro i
  rw [Nat.testBit_mod_two_pow, Nat.testBit_mod_two_pow, Nat.testBit_div_two_pow,
    Nat.testBit_div_two_pow, Nat.testBit_mod_two_pow]
  by_cases hi : i < bits
  · have : shift + i < cut := by omega
    simp [this, Nat.add_comm]
  · simp [hi]

theorem two_pow_eight_mul (count : Nat) : 256 ^ count = 2 ^ (8 * count) := by
  rw [Nat.pow_mul]

/-- What is read from a bit on are the bits of the number of all bytes. -/
theorem bitsFrom_eq (data : ByteArray) (bits start : Nat) :
    bitsFrom data bits start = number data.data.toList / 2 ^ start % 2 ^ min bits 64 := by
  -- The byte in which the bit stands, and the place of the bit in it.
  have hstart : start = 8 * (start / 8) + start % 8 := by omega
  rw [bitsFrom, leAt_eq_number, number_take, number_drop, two_pow_eight_mul, two_pow_eight_mul,
    mod_div_mod (by omega), Nat.div_div_eq_div_mul, ← Nat.pow_add, ← hstart]

/-! ### The packer -/

namespace Packer

/-- The bits that a packer has taken in on top of an output. -/
def Taken (out : ByteArray) (bits value : Nat) (packer : Packer) : Prop :=
  ∃ bytes : List UInt8, packer.out = out ++ bytes.toByteArray ∧
    8 * bytes.length + packer.heldBits = bits ∧
    number bytes + 256 ^ bytes.length * packer.held = value

theorem append_push (out : ByteArray) (bytes : List UInt8) (byte : UInt8) :
    (out ++ bytes.toByteArray).push byte = out ++ (bytes ++ [byte]).toByteArray := by
  apply ByteArray.ext
  simp [ByteArray.data_append, List.data_toByteArray]

/-- Moving whole bytes out changes nothing but where the bits are. -/
theorem taken_flushBytes {out : ByteArray} {bits value : Nat} (before : ByteArray)
    (held heldBits : Nat) (h : Taken out bits value ⟨before, held, heldBits⟩) :
    Taken out bits value (flushBytes before held heldBits) ∧
      (flushBytes before held heldBits).heldBits < 8 := by
  fun_induction flushBytes before held heldBits with
  | case1 before held heldBits hge ih =>
    -- One byte moves from the held number to the end of the output.
    refine ih ?_
    obtain ⟨bytes, hout, hbits, hvalue⟩ := h
    simp only at hout hbits hvalue
    refine ⟨bytes ++ [UInt8.ofNat held], ?_, ?_, ?_⟩
    · show before.push _ = _
      rw [hout, append_push]
    · show 8 * (bytes ++ [UInt8.ofNat held]).length + (heldBits - 8) = bits
      rw [List.length_append, List.length_singleton]
      omega
    · show number (bytes ++ [UInt8.ofNat held])
        + 256 ^ (bytes ++ [UInt8.ofNat held]).length * (held / 256) = value
      have hheld := Nat.div_add_mod held 256
      rw [number_append, List.length_append, List.length_singleton, Nat.pow_succ, ← hvalue,
        Nat.mul_assoc, Nat.add_assoc, ← Nat.mul_add]
      congr 2
      rw [number, number, UInt8.toNat_ofNat']
      omega
  | case2 before held heldBits hlt => exact ⟨h, Nat.lt_of_not_le hlt⟩

theorem taken_push {out : ByteArray} {bits value width : Nat} {packer : Packer}
    (h : Taken out bits value packer) (hwidth : width ≤ 64) (element : Nat) :
    Taken out (bits + width) (value + 2 ^ bits * (element % 2 ^ width))
        (packer.push width element) ∧
      (packer.push width element).heldBits < 8 := by
  apply taken_flushBytes
  obtain ⟨bytes, hout, hbits, hvalue⟩ := h
  refine ⟨bytes, hout, ?_, ?_⟩
  · show 8 * bytes.length + (packer.heldBits + width) = bits + width
    omega
  · show number bytes + 256 ^ bytes.length
      * (packer.held + element % 2 ^ min width 64 * 2 ^ packer.heldBits) = _
    rw [Nat.min_eq_left hwidth, Nat.mul_add, ← Nat.add_assoc, hvalue, ← hbits, Nat.pow_add,
      two_pow_eight_mul]
    ac_rfl

theorem taken_foldl {out : ByteArray} {width : Nat} (hwidth : width ≤ 64) (values : List Nat)
    {bits value : Nat} {packer : Packer} (h : Taken out bits value packer)
    (hheld : packer.heldBits < 8) :
    Taken out (bits + values.length * width) (value + 2 ^ bits * packedNumber width values)
        (values.foldl (push width) packer) ∧
      (values.foldl (push width) packer).heldBits < 8 := by
  induction values generalizing bits value packer with
  | nil => simpa [packedNumber] using ⟨h, hheld⟩
  | cons element rest ih =>
    obtain ⟨hnext, hheld'⟩ := taken_push h hwidth element
    have := ih hnext hheld'
    rw [List.foldl_cons, List.length_cons, Nat.succ_mul, packedNumber, Nat.mul_add,
      ← Nat.mul_assoc, ← Nat.pow_add, ← Nat.add_assoc value, Nat.add_comm (rest.length * width),
      ← Nat.add_assoc bits]
    exact this

/-- The last byte takes all bits that are still held. -/
theorem taken_finish {out : ByteArray} {bits value : Nat} {packer : Packer}
    (h : Taken out bits value packer) (hheld : packer.heldBits < 8) (hvalue : value < 2 ^ bits) :
    ∃ bytes : List UInt8, packer.finish = out ++ bytes.toByteArray ∧
      bytes.length = (bits + 7) / 8 ∧ number bytes = value := by
  obtain ⟨bytes, hout, hbits, hnumber⟩ := h
  have hsmall : packer.held < 2 ^ packer.heldBits := by
    rw [← hnumber, ← hbits, Nat.pow_add, ← two_pow_eight_mul] at hvalue
    exact Nat.lt_of_mul_lt_mul_left (Nat.lt_of_le_of_lt (Nat.le_add_left ..) hvalue)
  unfold finish
  split
  next hpos =>
    have hbyte : packer.held < 2 ^ 8 :=
      Nat.lt_of_lt_of_le hsmall (Nat.pow_le_pow_right (by decide) (by omega))
    refine ⟨bytes ++ [UInt8.ofNat packer.held], ?_, ?_, ?_⟩
    · rw [hout, append_push]
    · rw [List.length_append, List.length_singleton]
      omega
    · rw [number_append, number, number, UInt8.toNat_ofNat', Nat.mod_eq_of_lt hbyte,
        Nat.mul_zero, Nat.add_zero, hnumber]
  next hzero =>
    have hbits0 : packer.heldBits = 0 := by omega
    rw [hbits0, Nat.pow_zero, Nat.lt_one_iff] at hsmall
    rw [hsmall, Nat.mul_zero, Nat.add_zero] at hnumber
    exact ⟨bytes, hout, by omega, hnumber⟩

end Packer

/-- What packing appends. -/
theorem pack_eq {bits : Nat} (hbits : bits ≤ 64) (values : List Nat) (out : ByteArray) :
    ∃ bytes : List UInt8, pack values bits out = out ++ bytes.toByteArray ∧
      bytes.length = (values.length * bits + 7) / 8 ∧
      number bytes = packedNumber bits values := by
  have hlt := packedNumber_lt bits values
  by_cases hzero : bits = 0
  · -- Elements without bits are not written, and their number is 0.
    subst hzero
    rw [Nat.mul_zero, Nat.pow_zero, Nat.lt_one_iff] at hlt
    exact ⟨[], by simp [pack], by simp, hlt.symm⟩
  · have hstart : Packer.Taken out 0 0 ⟨out, 0, 0⟩ := ⟨[], by simp, rfl, rfl⟩
    obtain ⟨htaken, hheld⟩ := Packer.taken_foldl hbits values hstart (Nat.zero_lt_succ 7)
    rw [Nat.zero_add, Nat.zero_add, Nat.pow_zero, Nat.one_mul] at htaken
    rw [pack, if_neg hzero]
    exact Packer.taken_finish htaken hheld hlt

/-- An element is read back from packed bytes, whatever follows them. -/
theorem bitsFrom_number {bits position : Nat} (hbits : bits ≤ 64) {values : List Nat}
    (h : position < values.length) {data : ByteArray} {bytes tail : List UInt8}
    (hdata : data.data.toList = bytes ++ tail)
    (hlength : bytes.length = (values.length * bits + 7) / 8)
    (hnumber : number bytes = packedNumber bits values) :
    bitsFrom data bits (position * bits) = values[position] % 2 ^ bits := by
  have hend : position * bits + bits ≤ 8 * bytes.length := by
    have hle : (position + 1) * bits ≤ values.length * bits := Nat.mul_le_mul_right _ h
    rw [Nat.succ_mul] at hle
    omega
  -- What follows is counted in steps of `256 ^ bytes.length`, above every bit that is read.
  have hcut : number bytes = number (bytes ++ tail) % 2 ^ (8 * bytes.length) := by
    rw [number_append, ← two_pow_eight_mul, Nat.add_mul_mod_self_left,
      Nat.mod_eq_of_lt (number_lt bytes)]
  rw [bitsFrom_eq, hdata, Nat.min_eq_left hbits, ← mod_div_mod hend, ← hcut, hnumber,
    packedNumber_div_mod h]

/-- Packing leaves the output alone and appends no byte more than the elements have bits for, and
every element is read back from those bytes, whatever follows them.  Bits are counted in a 64-bit
word, which has room for all that a memory of 2^61 bytes can hold. -/
theorem unpackAt_pack {bits : Nat} (hbits : bits ≤ 64) {values : List Nat}
    (hvalues : ∀ value ∈ values, value < 2 ^ bits) (out : ByteArray) :
    ∃ bytes : ByteArray, pack values bits out = out ++ bytes ∧
      bytes.size = (values.length * bits + 7) / 8 ∧
      ∀ (tail : ByteArray) (position : Nat) (h : position < values.length),
        position * bits < 2 ^ 64 → unpackAt (bytes ++ tail) bits position = values[position] := by
  obtain ⟨bytes, hpack, hlength, hnumber⟩ := pack_eq hbits values out
  refine ⟨bytes.toByteArray, hpack, by rw [List.size_toByteArray, hlength], ?_⟩
  intro tail position h hword
  have hdata : (bytes.toByteArray ++ tail).data.toList = bytes ++ tail.data.toList := by
    rw [ByteArray.data_append, Array.toList_append, List.toList_data_toByteArray]
  rw [unpackAt_eq _ hword, bitsFrom_number hbits h hdata hlength hnumber]
  exact Nat.mod_eq_of_lt (hvalues _ (List.getElem_mem h))

/-- The second of three elements of 63 bits takes a part of nine bytes. -/
theorem unpackAt_pack_nine :
    63 ≤ 64 ∧ (∀ value ∈ [1, 2 ^ 63 - 1, 5], value < 2 ^ 63) ∧
      ∃ bytes : ByteArray, pack [1, 2 ^ 63 - 1, 5] 63 ⟨#[0xAA]⟩ = ⟨#[0xAA]⟩ ++ bytes ∧
        bytes.size = 24 ∧ unpackAt (bytes ++ ⟨#[0xFF]⟩) 63 1 = 2 ^ 63 - 1 := by
  have hvalues : ∀ value ∈ [1, 2 ^ 63 - 1, 5], value < 2 ^ 63 := by decide
  obtain ⟨bytes, hpack, hsize, hread⟩ := unpackAt_pack (by decide) hvalues ⟨#[0xAA]⟩
  exact ⟨by decide, hvalues, bytes, hpack, hsize, hread ⟨#[0xFF]⟩ 1 (by decide) (by decide)⟩

/-! ### Widths -/

theorem le_foldl_max {first value : Nat} {values : List Nat} (h : value ∈ first :: values) :
    value ≤ values.foldl max first := by
  induction values generalizing first value with
  | nil =>
    rw [List.mem_singleton.1 h]
    exact Nat.le_refl _
  | cons second rest ih =>
    have hhead : max first second ≤ rest.foldl max (max first second) := ih (List.mem_cons_self ..)
    rw [List.foldl_cons]
    rcases List.mem_cons.1 h with rfl | h
    · exact Nat.le_trans (Nat.le_max_left ..) hhead
    · rcases List.mem_cons.1 h with rfl | h
      · exact Nat.le_trans (Nat.le_max_right ..) hhead
      · exact ih (List.mem_cons_of_mem _ h)

theorem foldl_max_lt {first bound : Nat} {values : List Nat} (hfirst : first < bound)
    (h : ∀ value ∈ values, value < bound) : values.foldl max first < bound := by
  induction values generalizing first with
  | nil => exact hfirst
  | cons second rest ih =>
    apply ih (Nat.max_lt.2 ⟨hfirst, h second (List.mem_cons_self ..)⟩)
    exact fun value hv => h value (List.mem_cons_of_mem _ hv)

theorem lt_two_pow_bitsNeeded {value most : Nat} (h : value ≤ most) :
    value < 2 ^ bitsNeeded most :=
  Nat.lt_of_le_of_lt h Nat.lt_log2_self

theorem bitsNeeded_le {value bits : Nat} (h : value < 2 ^ bits) (hbits : 0 < bits) :
    bitsNeeded value ≤ bits := by
  rw [bitsNeeded]
  by_cases hzero : value = 0
  · subst hzero
    exact hbits
  · exact (Nat.log2_lt hzero).2 h

end Packed

namespace PackedArray

/-- The elements of an array that holds the bytes of packed values. -/
theorem get_eq {array : PackedArray} {values : List Nat} {bytes : List UInt8}
    (hbits : array.bits ≤ 64) (hwords : values.length * array.bits < 2 ^ 64)
    (hvalues : ∀ value ∈ values, value < 2 ^ array.bits)
    (hdata : array.data = bytes.toByteArray)
    (hlength : bytes.length = (values.length * array.bits + 7) / 8)
    (hnumber : Bytes.number bytes = Packed.packedNumber array.bits values)
    {position value : Nat} (h : values[position]? = some value) : array.get position = value := by
  obtain ⟨hlt, rfl⟩ := List.getElem?_eq_some_iff.1 h
  have hle : position * array.bits ≤ values.length * array.bits :=
    Nat.mul_le_mul_right _ (Nat.le_of_lt hlt)
  have hbytes : array.data.data.toList = bytes ++ [] := by
    rw [hdata, List.toList_data_toByteArray, List.append_nil]
  rw [get, Packed.unpackAt_eq _ (by omega),
    Packed.bitsFrom_number hbits hlt hbytes hlength hnumber]
  exact Nat.mod_eq_of_lt (hvalues _ (List.getElem_mem hlt))

/-- The bits of every element are counted in one word, and the bytes that hold them are there. -/
def Inside (array : PackedArray) : Prop :=
  ∀ position < array.size, position * array.bits < 2 ^ 64 ∧
    position * array.bits / 8 + (position * array.bits % 8 + array.bits + 7) / 8 ≤ array.data.size

theorem inside {array : PackedArray} (h : array.size * array.bits < 2 ^ 64) : array.Inside := by
  intro position hp
  have hle := Nat.mul_le_mul_right array.bits (Nat.succ_le_of_lt hp)
  rw [Nat.succ_mul] at hle
  rw [array.data_size, Packed.byteLength_eq h]
  omega

end PackedArray

end Postings
