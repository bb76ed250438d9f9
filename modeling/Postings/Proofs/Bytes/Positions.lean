/-
Where a reader stands.

Whatever is asked of a reader, and whether it answers or refuses, it keeps its bytes and moves
neither back nor past their end.  It moves exactly over the item that stands where it is.  If none
stands there it refuses and stays; a number that stands there and does not fit 32 bits, when such a
number is asked for, is refused and passed over.

* `Request`, `Request.step` — what can be asked of a reader;
* `Request.item?` — the item that stands where a reader is, and how many bytes it takes;
* `Outcome`, `outcome` — all that becomes of one request;
* `afterAll`, `positions_spec` — requests one after the other, refused or not.
-/
import Postings.Proofs.Bytes.Reads

namespace Postings.Reader

/-- What can be asked of a reader, with a name for what is read. -/
inductive Request where
  | byte (what : String)
  | word32 (what : String)
  | word64 (what : String)
  | varint (what : String)
  | varint32 (what : String)
  | skip (count : Nat) (what : String)

/-- The number that the next `count` bytes make up and how many they are, if they are there. -/
def number? (reader : Reader) (count : Nat) : Option (Nat × Nat) :=
  if count ≤ reader.remaining then some (Bytes.number (reader.rest.take count), count) else none

namespace Request

/-- The step of reading that is asked for. -/
def step : Request → Read Nat
  | byte what => Read.byte what
  | word32 what => Read.word32 what
  | word64 what => Read.word64 what
  | varint what => Read.varint what
  | varint32 what => Read.varint32 what
  | skip count what => Read.skip count what

/-- The item that stands where a reader is, and how many bytes it takes.  Bytes that are passed
over are told by the place where they start. -/
def item? (reader : Reader) : Request → Option (Nat × Nat)
  | byte _ => reader.number? 1
  | word32 _ => reader.number? 4
  | word64 _ => reader.number? 8
  | varint _ | varint32 _ => Varint.decode reader.rest
  | skip count _ => if count ≤ reader.remaining then some (reader.position, count) else none

/-- Whether an item may be answered. -/
def Admits : Request → Nat → Prop
  | varint32 _, value => value < 2 ^ 32
  | _, _ => True

/-- What a reader complains of if no item stands where it is. -/
def complaint (reader : Reader) : Request → Corruption
  | byte what | word32 what | word64 what => .truncated what
  | varint what | varint32 what => .badVarint what
  | skip count what => .short what count reader.remaining

end Request

/-! ### One request -/

theorem advance?_eq (reader : Reader) (count : Nat) :
    reader.advance? count
      = if count ≤ reader.remaining then some (reader.forward count) else none := by
  have hremaining : reader.remaining = reader.rest.length := reader.length_rest.symm
  rw [hremaining]
  split
  next hcount => exact advance?_eq_some hcount
  next hcount => exact advance?_eq_none (Nat.lt_of_not_le hcount)

/-- An item of so many bytes is there only if the bytes are. -/
theorem le_of_ite_eq_some {reader : Reader} {count found value length : Nat}
    (h : (if count ≤ reader.remaining then some (found, count) else none)
      = some (value, length)) : length ≤ reader.rest.length := by
  split at h
  next hcount =>
    obtain ⟨-, rfl⟩ := Prod.mk.inj (Option.some.inj h)
    exact Nat.le_trans hcount (Nat.le_of_eq reader.length_rest.symm)
  next => exact absurd h (by simp)

/-- All that becomes of a request: the item that stands where the reader is has been answered and
passed over, or there is none and the reader stays, or there is one that does not fit 32 bits and
it has been passed over. -/
inductive Outcome (reader : Reader) : Request → EStateM.Result Error Reader Nat → Prop
  | answered (request : Request) (value length : Nat) (after : Reader)
    (hitem : request.item? reader = some (value, length)) (hadmits : request.Admits value)
    (hbytes : after.bytes = reader.bytes) (hposition : after.position = reader.position + length) :
    Outcome reader request (.ok value after)
  | missing (request : Request) (hitem : request.item? reader = none) :
    Outcome reader request (.error (.corrupt (request.complaint reader)) reader)
  | tooLarge (what : String) (value length : Nat) (after : Reader)
    (hitem : Varint.decode reader.rest = some (value, length)) (hlarge : 2 ^ 32 ≤ value)
    (hbytes : after.bytes = reader.bytes) (hposition : after.position = reader.position + length) :
    Outcome reader (.varint32 what) (.error (.corrupt (.over32Bits what value)) after)

theorem item?_le {reader : Reader} {request : Request} {value length : Nat}
    (h : request.item? reader = some (value, length)) : length ≤ reader.rest.length := by
  cases request with
  | byte what | word32 what | word64 what => exact le_of_ite_eq_some h
  | varint what | varint32 what => exact (Varint.decode_length_le h).1
  | skip count what => exact le_of_ite_eq_some h

/-- A number that stands in front of a window of ten bytes stands in front of what is left. -/
theorem decode_window_eq (reader : Reader) :
    Varint.decode reader.window = Varint.decode reader.rest := by
  have hsplit : reader.rest = reader.window ++ reader.rest.drop Varint.maxLength := by
    rw [window_eq, List.take_append_drop]
  cases hrest : Varint.decode reader.rest with
  | none =>
    cases hwindow : Varint.decode reader.window with
    | none => rfl
    | some answer =>
      -- Bytes behind a number do not matter, so there would be one in the rest as well.
      have hmore := Varint.decode_append hwindow (reader.rest.drop Varint.maxLength)
      rw [← hsplit, hrest] at hmore
      exact absurd hmore (by simp)
  | some answer =>
    -- No number takes more than the window.
    obtain ⟨value, length⟩ := answer
    have hcut := Varint.decode_take hrest
    have hlength := (Varint.decode_length_le hrest).2
    have hwindow : reader.window.take length = reader.rest.take length := by
      rw [window_eq, List.take_take, Nat.min_eq_left hlength]
    rw [← List.take_append_drop length reader.window, hwindow]
    exact Varint.decode_append hcut _

theorem little_eq (reader : Reader) (count : Nat) (what : String) :
    Read.little count what reader
      = match reader.number? count with
        | some (value, length) => .ok value (reader.forward length)
        | none => .error (.corrupt (.truncated what)) reader := by
  rw [Read.little, advance?_eq, number?]
  by_cases hcount : count ≤ reader.remaining
  · simp only [if_pos hcount]
    rw [Bytes.leAt_eq_number]
    rfl
  · simp only [if_neg hcount]

theorem varint_eq (reader : Reader) (what : String) :
    Read.varint what reader
      = match Varint.decode reader.rest with
        | some (value, length) => .ok value (reader.forward length)
        | none => .error (.corrupt (.badVarint what)) reader := by
  rw [Read.varint, decode_window_eq]
  cases h : Varint.decode reader.rest with
  | none => rfl
  | some answer =>
    obtain ⟨value, length⟩ := answer
    simp only [advance?_eq_some (Varint.decode_length_le h).1]

theorem varint32_eq (reader : Reader) (what : String) :
    Read.varint32 what reader
      = match Varint.decode reader.rest with
        | some (value, length) =>
          if value < 2 ^ 32 then .ok value (reader.forward length)
          else .error (.corrupt (.over32Bits what value)) (reader.forward length)
        | none => .error (.corrupt (.badVarint what)) reader := by
  have hvarint := varint_eq reader what
  cases h : Varint.decode reader.rest with
  | none =>
    rw [h] at hvarint
    exact Read.bind_error hvarint
  | some answer =>
    obtain ⟨value, length⟩ := answer
    rw [h] at hvarint
    refine (Read.bind_ok hvarint).trans ?_
    by_cases hvalue : value < 2 ^ 32
    · simp only [if_pos hvalue]
      rfl
    · simp only [if_neg hvalue]
      rfl

theorem skip_eq (reader : Reader) (count : Nat) (what : String) :
    Read.skip count what reader
      = if count ≤ reader.remaining then .ok reader.position (reader.forward count)
        else .error (.corrupt (.short what count reader.remaining)) reader := by
  rw [Read.skip, advance?_eq]
  by_cases hcount : count ≤ reader.remaining
  · simp only [if_pos hcount]
  · simp only [if_neg hcount]

/-- A step that passes over what stands where the reader is. -/
theorem Outcome.of_item? {reader : Reader} {request : Request}
    (hadmits : ∀ value, request.Admits value)
    (hstep : request.step reader
      = match request.item? reader with
        | some (value, length) => .ok value (reader.forward length)
        | none => .error (.corrupt (request.complaint reader)) reader) :
    Outcome reader request (request.step reader) := by
  rw [hstep]
  cases hitem : request.item? reader with
  | none => exact .missing request hitem
  | some item =>
    obtain ⟨value, length⟩ := item
    exact .answered request value length _ hitem (hadmits value) rfl
      (position_forward (item?_le hitem))

theorem outcome (reader : Reader) (request : Request) :
    Outcome reader request (request.step reader) := by
  cases request with
  | byte what => exact .of_item? (fun _ => trivial) (little_eq reader 1 what)
  | word32 what => exact .of_item? (fun _ => trivial) (little_eq reader 4 what)
  | word64 what => exact .of_item? (fun _ => trivial) (little_eq reader 8 what)
  | varint what => exact .of_item? (fun _ => trivial) (varint_eq reader what)
  | varint32 what =>
    -- The one request that may pass over an item and refuse it.
    rw [Request.step, varint32_eq]
    cases hitem : Varint.decode reader.rest with
    | none => exact .missing (.varint32 what) hitem
    | some item =>
      obtain ⟨value, length⟩ := item
      have hposition := position_forward (Varint.decode_length_le hitem).1
      by_cases hvalue : value < 2 ^ 32
      · simp only [if_pos hvalue]
        exact .answered (.varint32 what) value length _ hitem hvalue rfl hposition
      · simp only [if_neg hvalue]
        exact .tooLarge what value length _ hitem (Nat.le_of_not_lt hvalue) rfl hposition
  | skip count what =>
    refine .of_item? (fun _ => trivial) ?_
    rw [Request.step, skip_eq, Request.item?]
    split
    next hcount => rfl
    next hcount => rfl

/-! ### Requests one after the other -/

/-- The reader after a request, answered or refused. -/
def after (reader : Reader) (request : Request) : Reader :=
  match request.step reader with
  | .ok _ next => next
  | .error _ next => next

/-- A reader from the start of bytes, after requests. -/
def afterAll (bytes : ByteArray) (requests : List Request) : Reader :=
  requests.foldl after (ofBytes bytes)

theorem after_forward (reader : Reader) (request : Request) :
    (reader.after request).bytes = reader.bytes ∧
      reader.position ≤ (reader.after request).position := by
  have houtcome := outcome reader request
  rw [after]
  generalize request.step reader = answer at houtcome ⊢
  cases answer with
  | ok value next =>
    cases houtcome with
    | answered _ _ length _ hitem hadmits hbytes hposition =>
      exact ⟨hbytes, Nat.le.intro hposition.symm⟩
  | error error next =>
    cases houtcome with
    | missing => exact ⟨rfl, Nat.le_refl _⟩
    | tooLarge what value length _ hitem hlarge hbytes hposition =>
      exact ⟨hbytes, Nat.le.intro hposition.symm⟩

/-- Requests leave the bytes alone and never move back. -/
theorem foldl_after_forward (reader : Reader) (requests : List Request) :
    (requests.foldl after reader).bytes = reader.bytes ∧
      reader.position ≤ (requests.foldl after reader).position := by
  induction requests generalizing reader with
  | nil => exact ⟨rfl, Nat.le_refl _⟩
  | cons request rest ih =>
    obtain ⟨hbytes, hposition⟩ := after_forward reader request
    obtain ⟨hbytes', hposition'⟩ := ih (reader.after request)
    exact ⟨hbytes'.trans hbytes, Nat.le_trans hposition hposition'⟩

/-- Whatever was asked of a reader, it has its bytes, stands inside them, and what it has passed
and what is left make them up; nothing that is asked after that moves it back.  One more request
has one of three outcomes: an answer over which it moves, a refusal where nothing to answer stands,
which leaves it where it is, or the refusal of a number that is passed over. -/
theorem positions_spec (bytes : ByteArray) (requests : List Request) :
    (afterAll bytes requests).bytes = bytes ∧
    (afterAll bytes requests).position ≤ bytes.size ∧
    (afterAll bytes requests).position + (afterAll bytes requests).remaining = bytes.size ∧
    (∀ more, (afterAll bytes requests).position ≤ (afterAll bytes (requests ++ more)).position) ∧
    ∀ request, Outcome (afterAll bytes requests) request
        (request.step (afterAll bytes requests)) ∧
      afterAll bytes (requests ++ [request]) = (afterAll bytes requests).after request := by
  have hbytes : (afterAll bytes requests).bytes = bytes :=
    (foldl_after_forward (ofBytes bytes) requests).1
  have hposition := (afterAll bytes requests).position_le
  have hwhole := (afterAll bytes requests).remaining_add_position
  rw [hbytes] at hposition hwhole
  refine ⟨hbytes, hposition, by omega, fun more => ?_, fun request => ⟨outcome _ request, ?_⟩⟩
  · rw [afterAll, afterAll, List.foldl_append]
    exact (foldl_after_forward _ more).2
  · rw [afterAll, List.foldl_append]
    rfl

/-- A number that is too large is passed over, one that is cut short is not. -/
example : (afterAll ⟨#[0x80, 0x80, 0x80, 0x80, 0x10, 0x85]⟩
    [.varint32 "size", .varint "value", .word32 "size"]).position = 5 := by
  cbv

end Postings.Reader
