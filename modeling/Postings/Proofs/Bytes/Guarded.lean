/-
Reading with every access guarded.

The definitions that read are total: a byte past the end counts as zero, a part is cut short at
the end, a difference stops at zero and a quotient by zero is zero.  A guarded copy goes the same
way and makes the same accesses, but strays instead, which is the outcome `none`, where one of them
is out of range.  `Guards guarded step` says that the copy never strays and otherwise does what the
step does, so that no access of the step is out of range either.

* `Bytes.leAt?`, `Bytes.part?`, `minus?`, `divUp?` — the accesses, and when they do not stray;
* `Packed.bitsFrom?`, `PackedArray.get?_eq` — an element of a packed array;
* `Guards.bind` — composition, where the second step may count on what the first one yields;
* `Guards.little`, `Guards.varint`, `Guards.take` — the fields.
-/
import Postings.Proofs.Bytes.Packing
import Postings.Proofs.Bytes.Reads

namespace Postings

/-! ### Accesses -/

/-- A difference that is not below zero. -/
def minus? (count part : Nat) : Option { left : Nat // left + part = count } :=
  if h : part ≤ count then some ⟨count - part, Nat.sub_add_cancel h⟩ else none

theorem minus?_eq {count part : Nat} (h : part ≤ count) :
    minus? count part = some ⟨count - part, Nat.sub_add_cancel h⟩ :=
  dif_pos h

/-- How many parts of a size that is not zero it takes for a count. -/
def divUp? (count size : Nat) : Option { parts : Nat // parts = (count + size - 1) / size } :=
  if 0 < size then some ⟨(count + size - 1) / size, rfl⟩ else none

theorem divUp?_eq {count size : Nat} (h : 0 < size) :
    divUp? count size = some ⟨(count + size - 1) / size, rfl⟩ :=
  if_pos h

namespace Bytes

/-- The byte at a position before the end. -/
def byteAt? (bytes : ByteArray) (position : Nat) : Option Nat :=
  if h : position < bytes.size then some bytes[position].toNat else none

/-- The number in `count` bytes that all lie before the end. -/
def leAt? (bytes : ByteArray) (start : Nat) : (count : Nat) → Option Nat
  | 0 => some 0
  | count + 1 => do
    let low ← byteAt? bytes start
    let high ← leAt? bytes (start + 1) count
    return low + 256 * high

/-- The `count` bytes from `start`, all before the end. -/
def part? (bytes : ByteArray) (start count : Nat) :
    Option { part : ByteArray // part.size = count } :=
  if h : start + count ≤ bytes.size then
    some ⟨bytes.extract start (start + count), by rw [ByteArray.size_extract]; omega⟩
  else none

variable {bytes : ByteArray} {start count : Nat}

theorem byteAt?_eq (h : start < bytes.size) : byteAt? bytes start = some (byteAt bytes start) := by
  rw [byteAt?, byteAt, dif_pos h, dif_pos h]

theorem leAt?_eq (h : start + count ≤ bytes.size) :
    leAt? bytes start count = some (leAt bytes start count) := by
  induction count generalizing start with
  | zero => rfl
  | succ count ih =>
    rw [leAt?, byteAt?_eq (by omega), Option.bind_eq_bind, Option.bind_some, ih (by omega)]
    rfl

theorem part?_eq (h : start + count ≤ bytes.size) : part? bytes start count
    = some ⟨bytes.extract start (start + count), by rw [ByteArray.size_extract]; omega⟩ :=
  dif_pos h

end Bytes

/-! ### Packed elements -/

namespace Packed

/-- The bits from bit `start` on, gathered in a word of sixteen bytes. -/
def bitsFrom? (data : ByteArray) (bits start : Nat) : Option Nat := do
  let shift := start % 8
  let covering := (shift + bits + 7) / 8
  if covering ≤ 16 then
    let word ← Bytes.leAt? data (start / 8) covering
    return word / 2 ^ shift % 2 ^ min bits 64
  else none

theorem bitsFrom?_eq {data : ByteArray} {bits start : Nat} (hbits : bits ≤ 64)
    (h : start / 8 + (start % 8 + bits + 7) / 8 ≤ data.size) :
    bitsFrom? data bits start = some (bitsFrom data bits start) := by
  have hcovering : (start % 8 + bits + 7) / 8 ≤ 16 := by omega
  simp only [bitsFrom?, if_pos hcovering, Bytes.leAt?_eq h]
  rfl

end Packed

namespace PackedArray

/-- The element at a position of the array. -/
def get? (array : PackedArray) (position : Nat) : Option Nat :=
  if position < array.size then
    Packed.bitsFrom? array.data array.bits (Packed.bitLength position array.bits)
  else none

theorem get?_eq {array : PackedArray} (h : array.Inside) (hbits : array.bits ≤ 64)
    {position : Nat} (hp : position < array.size) :
    array.get? position = some (array.get position) := by
  obtain ⟨hword, hdata⟩ := h position hp
  have helement := Packed.bitsFrom?_eq hbits hdata
  rw [← Packed.bitLength_eq hword] at helement
  rw [get?, if_pos hp, helement]
  rfl

end PackedArray

/-! ### Steps of reading -/

/-- A guarded step of reading: it strays, fails, or answers. -/
abbrev Guarded := StateT Reader (ExceptT Error Option)

variable {α β : Type}

/-- What a step of reading comes to, its place after a failure left out. -/
def outcome : EStateM.Result Error Reader α → Except Error (α × Reader)
  | .ok value after => .ok (value, after)
  | .error error _ => .error error

/-- The guarded step never strays, and fails or answers as the other does. -/
def Guards (guarded : Guarded α) (step : Read α) : Prop :=
  ∀ reader, (guarded.run reader).run = some (outcome (step reader))

namespace Guards

variable {guarded : Guarded α} {step : Read α}

theorem pure (value : α) : Guards (Pure.pure value) (Pure.pure value) :=
  fun _ => rfl

theorem throw (error : Error) :
    Guards (MonadExcept.throw error : Guarded α) (MonadExcept.throw error) :=
  fun _ => rfl

theorem bind {property : α → Prop} {next : α → Guarded β} {other : α → Read β}
    (h : Guards guarded step) (hyields : Yields step property)
    (hnext : ∀ value, property value → Guards (next value) (other value)) :
    Guards (guarded >>= next) (step >>= other) := by
  intro reader
  have hrun := h reader
  cases hstep : step reader with
  | error error after =>
    rw [hstep] at hrun
    rw [Read.bind_error hstep, StateT.run_bind, ExceptT.run_bind, hrun]
    rfl
  | ok value after =>
    rw [hstep] at hrun
    rw [Read.bind_ok hstep, StateT.run_bind, ExceptT.run_bind, hrun]
    exact hnext value (hyields reader value after hstep) after

/-- An access in front of a step, that is in range. -/
theorem access {access : Option β} {value : β} {next : β → Guarded α}
    (haccess : access = some value) (h : Guards (next value) step) :
    Guards (liftM access >>= next) step := by
  intro reader
  rw [haccess]
  exact h reader

/-- A check between two steps, that reads nothing. -/
theorem run_check {check : ExceptT Error Option α} {answer : Except Error α}
    (h : check.run = some answer) (reader : Reader) :
    (StateT.run (liftM check : Guarded α) reader).run = some (answer.map fun value =>
      (value, reader)) := by
  show ExceptT.run (check >>= fun value => Pure.pure (value, reader)) = _
  rw [ExceptT.run_bind, h]
  cases answer with
  | error error => rfl
  | ok value => rfl

/-- A run from the start of bytes strays no more than the step does. -/
theorem run (h : Guards guarded step) (bytes : ByteArray) :
    (guarded.run (Reader.ofBytes bytes)).run = some (Read.run step bytes) := by
  rw [h, Read.run]
  cases step (Reader.ofBytes bytes) with
  | error error after => rfl
  | ok value after => rfl

end Guards

/-! ### Fields -/

namespace Guarded

/-- How many bytes are left. -/
def remaining : Guarded Nat := fun reader => do
  let left ← minus? reader.bytes.size reader.position
  return (left.val, reader)

/-- The next `count` bytes as a number, least significant byte first. -/
def little (count : Nat) (what : String) : Guarded Nat := fun reader =>
  match reader.advance? count with
  | some next => do
    let value ← Bytes.leAt? reader.bytes reader.position count
    return (value, next)
  | none => throw (.corrupt (.truncated what))

/-- The next byte. -/
def byte (what : String) : Guarded Nat := little 1 what

/-- The next four bytes as a number. -/
def word32 (what : String) : Guarded Nat := little 4 what

/-- The next variable-length number, decoded from the bytes that are left. -/
def varint (what : String) : Guarded Nat := fun reader => do
  let left ← minus? reader.bytes.size reader.position
  let window ← Bytes.part? reader.bytes reader.position (min Varint.maxLength left)
  match Varint.decode window.val.data.toList with
  | none => throw (.corrupt (.badVarint what))
  | some (value, length) =>
    let next ← reader.advance? length
    return (value, next)

/-- The next variable-length number, which must be below 2^32. -/
def varint32 (what : String) : Guarded Nat := do
  let value ← varint what
  if value < 2 ^ 32 then return value
  else throw (.corrupt (.over32Bits what value))

/-- The next `count` bytes. -/
def take (count : Nat) (what : String) : Guarded { bytes : ByteArray // bytes.size = count } :=
  fun reader => do
    let left ← minus? reader.bytes.size reader.position
    if count ≤ left.val then
      let part ← Bytes.part? reader.bytes reader.position count
      let next ← reader.advance? count
      return (part, next)
    else throw (.corrupt (.short what count left))

end Guarded

namespace Guards

variable {reader next : Reader} {what : String}

/-- An access that is in range goes on with what is there. -/
theorem run_access {access : Option α} {value : α} {after : α → ExceptT Error Option β}
    (h : access = some value) : (liftM access >>= after).run = (after value).run := by
  rw [h]
  rfl

theorem run_left (after : { left : Nat // left + reader.position = reader.bytes.size } →
    ExceptT Error Option β) : (liftM (minus? reader.bytes.size reader.position) >>= after).run
      = (after ⟨reader.remaining, reader.remaining_add_position⟩).run :=
  run_access (minus?_eq reader.position_le)

/-- The reader moves on inside the bytes only. -/
theorem advance?_eq_some {count : Nat} : reader.advance? count = some next ↔
    ∃ h : reader.position + count ≤ reader.bytes.size,
      next = ⟨reader.bytes, reader.position + count, h⟩ := by
  rw [Reader.advance?]
  split
  next h => simp [h, eq_comm]
  next h => simp [h]

theorem remaining : Guards Guarded.remaining Read.remaining :=
  fun _ => run_left _

theorem little (count : Nat) (what : String) :
    Guards (Guarded.little count what) (Read.little count what) := by
  intro reader
  show ExceptT.run (Guarded.little count what reader) = _
  rw [Guarded.little, Read.little]
  cases hnext : reader.advance? count with
  | none => rfl
  | some next =>
    obtain ⟨hle, -⟩ := advance?_eq_some.1 hnext
    exact run_access (Bytes.leAt?_eq hle)

theorem byte (what : String) : Guards (Guarded.byte what) (Read.byte what) :=
  little 1 what

theorem word32 (what : String) : Guards (Guarded.word32 what) (Read.word32 what) :=
  little 4 what

/-- As many bytes as are left and a number can take are the window. -/
theorem part_window (reader : Reader) :
    ∃ h, Bytes.part? reader.bytes reader.position (min Varint.maxLength reader.remaining)
      = some ⟨(reader.bytes.extract reader.position
          (reader.position + min Varint.maxLength reader.remaining)), h⟩ ∧
        (reader.bytes.extract reader.position
          (reader.position + min Varint.maxLength reader.remaining)).data.toList
            = reader.window := by
  have hleft := reader.remaining_add_position
  have hrest := reader.length_rest
  refine ⟨_, Bytes.part?_eq (by omega), ?_⟩
  rw [Reader.window_eq, ByteArray.data_extract, Array.toList_extract, List.extract_eq_take_drop,
    Nat.add_sub_cancel_left, ← Reader.rest, List.take_eq_take_iff]
  omega

theorem varint (what : String) : Guards (Guarded.varint what) (Read.varint what) := by
  intro reader
  -- The part is the window that the step decodes, so both find the same number in it.
  obtain ⟨hsize, hpart, hwindow⟩ := part_window reader
  show ExceptT.run (Guarded.varint what reader) = _
  rw [Guarded.varint, run_left, run_access hpart]
  simp only [hwindow]
  rw [Read.varint]
  cases hdecode : Varint.decode reader.window with
  | none => rfl
  | some answer =>
    obtain ⟨value, length⟩ := answer
    have hlead := (Reader.decode_window hdecode).1.length_le
    rw [List.length_take_of_le (Varint.decode_length_le hdecode).1] at hlead
    have hnext := Reader.advance?_eq_some hlead
    simp only [hnext]
    rfl

theorem varint32 (what : String) : Guards (Guarded.varint32 what) (Read.varint32 what) := by
  refine (varint what).bind (Yields.any _) fun value _ => ?_
  split
  · exact pure _
  · exact throw _

theorem take (count : Nat) (what : String) :
    Guards (Guarded.take count what) (Read.take count what) := by
  intro reader
  have hleft := reader.remaining_add_position
  show ExceptT.run (Guarded.take count what reader) = _
  rw [Guarded.take, run_left, Read.take]
  by_cases h : reader.position + count ≤ reader.bytes.size
  · rw [dif_pos h, if_pos (show count ≤ reader.remaining by omega), run_access (Bytes.part?_eq h),
      run_access (advance?_eq_some.2 ⟨h, rfl⟩)]
    rfl
  · rw [dif_neg h, if_neg (show ¬ count ≤ reader.remaining by omega)]
    rfl

end Guards

namespace PackedArray

/-- Reads the array of `size` elements that comes next. -/
def readGuarded (size bits : Nat) (what : String) : Guarded PackedArray := do
  let ⟨data, h⟩ ← Guarded.take (Packed.byteLength size bits) what
  return ⟨data, bits, size, h⟩

theorem guards_read (size bits : Nat) (what : String) :
    Guards (readGuarded size bits what) (read size bits what) :=
  (Guards.take _ _).bind (Yields.any _) fun _ _ => Guards.pure _

end PackedArray

end Postings
