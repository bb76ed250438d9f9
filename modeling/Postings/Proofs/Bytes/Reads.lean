/-
Parsers that are marked off by their own bytes.

`Reads step front value` says that a parser takes exactly the bytes `front` and
answers `value`, wherever they stand and whatever follows, and that it refuses
them as corrupt when they are cut short.  `Delimited step` says that this is the
only way in which the parser ever succeeds, `Takes step property` what is true of every
answer and the bytes that are taken for it, and `Yields step property` what is true of
every answer.  They compose along `bind`, so that a layout that is read field by
field is delimited because its fields are, and a written layout is read back
because its fields are.

* `Reads.bind`, `Delimited.bind`, `Takes.bind`, `Yields.bind` — composition;
* `Reads.little`, `Reads.varint`, `Reads.varint32`, `Reads.take` — the fields;
* `Reads.of_bind`, `Reads.of_little`, `Reads.of_take` — the only bytes that are taken for an answer,
  where a layout has one spelling for each.
-/
import Postings.Bytes.Reader
import Postings.Proofs.Bytes.Digits
import Postings.Proofs.Bytes.Varints

namespace Postings

namespace Reader

/-- The bytes not read yet. -/
def rest (reader : Reader) : List UInt8 :=
  reader.bytes.data.toList.drop reader.position

/-- The reader `count` bytes further, or at the end. -/
def forward (reader : Reader) (count : Nat) : Reader :=
  ⟨reader.bytes, min (reader.position + count) reader.bytes.size, Nat.min_le_right ..⟩

theorem length_rest (reader : Reader) :
    reader.rest.length = reader.bytes.size - reader.position := by
  rw [rest, List.length_drop, Array.length_toList]
  rfl

@[simp] theorem rest_ofBytes (bytes : ByteArray) : (ofBytes bytes).rest = bytes.data.toList := rfl

theorem rest_forward (reader : Reader) (count : Nat) :
    (reader.forward count).rest = reader.rest.drop count := by
  have hlength := reader.length_rest
  by_cases h : reader.position + count ≤ reader.bytes.size
  · rw [rest, forward, rest, List.drop_drop]
    simp only [Nat.min_eq_left h]
  · have hsize : reader.bytes.data.toList.length = reader.bytes.size := Array.length_toList
    rw [List.drop_eq_nil_of_le (by omega), rest, forward]
    simp only [Nat.min_eq_right (Nat.le_of_not_le h)]
    exact List.drop_eq_nil_of_le (by omega)

theorem forward_zero (reader : Reader) : reader.forward 0 = reader := by
  obtain ⟨bytes, position, h⟩ := reader
  simp only [forward, Nat.add_zero, Nat.min_eq_left h]

theorem forward_forward (reader : Reader) (first second : Nat) :
    (reader.forward first).forward second = reader.forward (first + second) := by
  simp only [forward, mk.injEq, true_and]
  omega

theorem position_forward {reader : Reader} {count : Nat} (h : count ≤ reader.rest.length) :
    (reader.forward count).position = reader.position + count := by
  have := reader.position_le
  rw [length_rest] at h
  simp only [forward]
  omega

theorem advance?_eq_some {reader : Reader} {count : Nat} (h : count ≤ reader.rest.length) :
    reader.advance? count = some (reader.forward count) := by
  have := reader.position_le
  rw [length_rest] at h
  have hle : reader.position + count ≤ reader.bytes.size := by omega
  simp only [advance?, dif_pos hle, forward, Nat.min_eq_left hle]

theorem advance?_eq_none {reader : Reader} {count : Nat} (h : reader.rest.length < count) :
    reader.advance? count = none := by
  rw [length_rest] at h
  rw [advance?, dif_neg (by omega)]

theorem window_eq (reader : Reader) : reader.window = reader.rest.take Varint.maxLength := by
  rw [window, rest, ByteArray.data_extract, Array.toList_extract, List.extract_eq_take_drop,
    Nat.add_sub_cancel_left]

end Reader

variable {α β : Type}

/-- A parser takes exactly these bytes and answers this value; cut short, they are corrupt. -/
structure Reads (step : Read α) (front : List UInt8) (value : α) : Prop where
  accepts : ∀ reader : Reader, front <+: reader.rest →
    step reader = .ok value (reader.forward front.length)
  refuses : ∀ reader : Reader, reader.rest <+: front → reader.rest ≠ front →
    ∃ cause after, step reader = .error (.corrupt cause) after

/-- A parser succeeds only by reading bytes that mark themselves off. -/
def Delimited (step : Read α) : Prop :=
  ∀ reader value after, step reader = .ok value after →
    ∃ front, front <+: reader.rest ∧ after = reader.forward front.length ∧ Reads step front value

/-- Every answer of a parser has a property. -/
def Yields (step : Read α) (property : α → Prop) : Prop :=
  ∀ reader value after, step reader = .ok value after → property value

/-! ### Composition -/

/-- Answers in a row succeed when each of them does. -/
theorem bind_eq_ok {answer : Except Error α} {next : α → Except Error β} {value : β} :
    (answer >>= next) = .ok value ↔ ∃ first, answer = .ok first ∧ next first = .ok value := by
  cases answer with
  | error error => simp [Bind.bind, Except.bind]
  | ok first => simp [Bind.bind, Except.bind]

theorem eq_ok_of_toOption {answer : Except Error α} {value : α}
    (h : answer.toOption = some value) : answer = .ok value := by
  cases answer with
  | error error => exact absurd h (by simp [Except.toOption])
  | ok found => exact congrArg Except.ok (Option.some.inj h)

theorem Read.bind_ok {step : Read α} {next : α → Read β} {reader middle : Reader} {value : α}
    (h : step reader = .ok value middle) : (step >>= next) reader = next value middle := by
  show EStateM.bind step next reader = _
  rw [EStateM.bind, h]

theorem Read.bind_error {step : Read α} {next : α → Read β} {reader after : Reader} {error : Error}
    (h : step reader = .error error after) : (step >>= next) reader = .error error after := by
  show EStateM.bind step next reader = _
  rw [EStateM.bind, h]

/-- What follows a step depends on nothing but what the step comes to. -/
theorem Read.bind_of_eq {step other : Read α} {next : α → Read β} {reader : Reader}
    (h : step reader = other reader) : (step >>= next) reader = (other >>= next) reader := by
  show EStateM.bind step next reader = EStateM.bind other next reader
  rw [EStateM.bind, EStateM.bind, h]

theorem Read.bind_eq_ok {step : Read α} {next : α → Read β} {reader after : Reader} {value : β}
    (h : (step >>= next) reader = .ok value after) :
    ∃ first middle, step reader = .ok first middle ∧ next first middle = .ok value after := by
  cases hs : step reader with
  | ok first middle => exact ⟨first, middle, rfl, (Read.bind_ok hs).symm.trans h⟩
  | error error middle =>
    rw [Read.bind_error hs] at h
    exact absurd h (by simp)

/-- A run is a step from the start of the bytes. -/
theorem Read.run_eq_ok {step : Read α} {bytes : ByteArray} {value : α} {after : Reader} :
    Read.run step bytes = .ok (value, after) ↔ step (Reader.ofBytes bytes) = .ok value after := by
  rw [Read.run]
  cases step (Reader.ofBytes bytes) with
  | ok found reader => simp
  | error error reader => simp

theorem Read.run_of_reads {step : Read α} {front : List UInt8} {value : α} {bytes : ByteArray}
    (h : Reads step front value) (hlead : front <+: bytes.data.toList) :
    Read.run step bytes = .ok (value, (Reader.ofBytes bytes).forward front.length) := by
  rw [Read.run, h.accepts (Reader.ofBytes bytes) hlead]

theorem Reads.pure (value : α) : Reads (pure value) [] value where
  accepts reader _ := by
    rw [List.length_nil, Reader.forward_zero]
    rfl
  refuses reader hfront hne := absurd (List.prefix_nil.1 hfront) hne

theorem Reads.bind {step : Read α} {next : α → Read β} {front back : List UInt8} {first : α}
    {value : β} (h : Reads step front first) (hnext : Reads (next first) back value) :
    Reads (step >>= next) (front ++ back) value where
  accepts reader hlead := by
    obtain ⟨tail, htail⟩ := hlead
    rw [List.append_assoc] at htail
    rw [Read.bind_ok (h.accepts reader ⟨_, htail⟩), hnext.accepts, Reader.forward_forward,
      List.length_append]
    rw [Reader.rest_forward, ← htail, List.drop_left]
    exact ⟨tail, rfl⟩
  refuses reader hlead hne := by
    -- The cut is inside the first part, or behind it and inside the second.
    rcases List.prefix_or_prefix_of_prefix hlead (List.prefix_append front back) with hcut | hcut
    · by_cases hall : reader.rest = front
      · have hstep := h.accepts reader (hall ▸ List.prefix_rfl)
        have hrest : (reader.forward front.length).rest = [] := by
          rw [Reader.rest_forward, hall, List.drop_length]
        have hback : back ≠ [] := by
          rintro rfl
          rw [List.append_nil] at hne
          exact hne hall
        obtain ⟨cause, after, herror⟩ := hnext.refuses (reader.forward front.length)
          (hrest ▸ List.nil_prefix) (hrest ▸ hback.symm)
        exact ⟨cause, after, by rw [Read.bind_ok hstep, herror]⟩
      · obtain ⟨cause, after, herror⟩ := h.refuses reader hcut hall
        exact ⟨cause, after, Read.bind_error herror⟩
    · have hstep := h.accepts reader hcut
      obtain ⟨middle, hmiddle⟩ := hcut
      have hrest : (reader.forward front.length).rest = middle := by
        rw [Reader.rest_forward, ← hmiddle, List.drop_left]
      rw [← hmiddle, List.prefix_append_right_inj] at hlead
      rw [← hmiddle, ne_eq, List.append_cancel_left_eq] at hne
      obtain ⟨cause, after, herror⟩ := hnext.refuses (reader.forward front.length)
        (hrest ▸ hlead) (hrest ▸ hne)
      exact ⟨cause, after, by rw [Read.bind_ok hstep, herror]⟩

/-- A parser that goes on without reading. -/
theorem Reads.decide {step : Read α} {next : α → Read β} {front : List UInt8} {first : α}
    {value : β} (h : Reads step front first) (hnext : Reads (next first) [] value) :
    Reads (step >>= next) front value := by
  have hreads := h.bind hnext
  rw [List.append_nil] at hreads
  exact hreads

theorem Reads.map {step : Read α} {front : List UInt8} {first : α} (h : Reads step front first)
    (make : α → β) : Reads (step >>= fun first => Pure.pure (make first)) front (make first) :=
  h.decide (Reads.pure (make first))

/-- The only answer of a parser is the one that the bytes in front stand for. -/
theorem Reads.delimits {step : Read α} {front : List UInt8} {value value' : α}
    {reader after : Reader} (h : Reads step front value') (hlead : front <+: reader.rest)
    (hok : step reader = .ok value after) :
    ∃ front, front <+: reader.rest ∧ after = reader.forward front.length ∧
      Reads step front value := by
  have haccepts := h.accepts reader hlead
  rw [hok, EStateM.Result.ok.injEq] at haccepts
  obtain ⟨rfl, rfl⟩ := haccepts
  exact ⟨front, hlead, rfl, h⟩

/-! ### What is taken -/

/-- For every answer a parser takes bytes that have a property with it. -/
def Takes (step : Read α) (property : α → List UInt8 → Prop) : Prop :=
  ∀ reader value after, step reader = .ok value after →
    ∃ front, front <+: reader.rest ∧ after = reader.forward front.length ∧ property value front

section Takes

variable {step : Read α} {property other : α → List UInt8 → Prop}
  {property' : β → List UInt8 → Prop}

theorem Takes.pure {value : α} (h : property value []) : Takes (Pure.pure value) property := by
  intro reader value' after hok
  obtain ⟨rfl, rfl⟩ : value = value' ∧ reader = after := by
    simpa [Pure.pure, EStateM.pure] using hok
  exact ⟨[], List.nil_prefix, (Reader.forward_zero reader).symm, h⟩

theorem Takes.throw (error : Error) : Takes (MonadExcept.throw error : Read α) property := by
  intro reader value after hok
  exact absurd (show EStateM.Result.error error reader = .ok value after from hok) (by simp)

theorem Takes.mono (h : Takes step property)
    (hmono : ∀ value front, property value front → other value front) : Takes step other := by
  intro reader value after hok
  obtain ⟨front, hfront, hafter, hproperty⟩ := h reader value after hok
  exact ⟨front, hfront, hafter, hmono value front hproperty⟩

/-- What two steps take stands one behind the other. -/
theorem Takes.bind {next : α → Read β} (h : Takes step property)
    (hnext : ∀ first lead, property first lead →
      Takes (next first) fun value back => property' value (lead ++ back)) :
    Takes (step >>= next) property' := by
  intro reader value after hok
  obtain ⟨first, middle, hfirst, hsecond⟩ := Read.bind_eq_ok hok
  obtain ⟨lead, hlead, rfl, hproperty⟩ := h reader first middle hfirst
  obtain ⟨back, hback, rfl, hproperty'⟩ := hnext first lead hproperty _ value after hsecond
  refine ⟨lead ++ back, ?_, ?_, hproperty'⟩
  · obtain ⟨tail, htail⟩ := hlead
    rw [Reader.rest_forward, ← htail, List.drop_left] at hback
    rw [← htail]
    exact (List.prefix_append_right_inj lead).2 hback
  · rw [Reader.forward_forward, List.length_append]

/-- A run takes the front of the bytes. -/
theorem Takes.run (h : Takes step property) {bytes : ByteArray} {value : α} {after : Reader}
    (hrun : Read.run step bytes = .ok (value, after)) :
    ∃ front, front <+: bytes.data.toList ∧ after.position = front.length ∧
      property value front := by
  obtain ⟨front, hfront, rfl, hproperty⟩ := h _ value after (Read.run_eq_ok.1 hrun)
  refine ⟨front, hfront, ?_, hproperty⟩
  rw [Reader.position_forward hfront.length_le, Reader.ofBytes, Nat.zero_add]

theorem Takes.and_yields (h : Takes step property) {holds : α → Prop}
    (hyields : Yields step holds) :
    Takes step fun value front => property value front ∧ holds value := by
  intro reader value after hok
  obtain ⟨front, hfront, hafter, hproperty⟩ := h reader value after hok
  exact ⟨front, hfront, hafter, hproperty, hyields reader value after hok⟩

end Takes

/-! ### Delimited parsers -/

theorem Delimited.takes {step : Read α} (h : Delimited step) :
    Takes step fun value front => Reads step front value := h

theorem Delimited.pure (value : α) : Delimited (pure value : Read α) :=
  Takes.pure (Reads.pure value)

theorem Delimited.throw (error : Error) : Delimited (throw error : Read α) :=
  Takes.throw error

theorem Delimited.bind {step : Read α} {next : α → Read β} (h : Delimited step)
    (hnext : ∀ first, Delimited (next first)) : Delimited (step >>= next) :=
  h.takes.bind fun first _ hlead => (hnext first).takes.mono fun _ _ hback => hlead.bind hback

/-! ### The bytes of an answer -/

/-- A reader of some bytes. -/
theorem Reader.exists_rest_eq (front : List UInt8) : ∃ reader : Reader, reader.rest = front :=
  ⟨ofBytes front.toByteArray, List.toList_data_toByteArray⟩

/-- Of bytes that are there, as many are taken as the reader moves on by. -/
theorem Delimited.reads {step : Read α} {front : List UInt8} {value : α} {reader : Reader}
    (h : Delimited step) (hlead : front <+: reader.rest)
    (hok : step reader = .ok value (reader.forward front.length)) : Reads step front value := by
  obtain ⟨taken, htaken, hafter, hreads⟩ := h reader value _ hok
  have hposition := congrArg Reader.position hafter
  rw [Reader.position_forward hlead.length_le, Reader.position_forward htaken.length_le]
    at hposition
  have hlength : front.length = taken.length := Nat.add_left_cancel hposition
  have hsame : front = taken := by
    rw [List.prefix_iff_eq_take.1 hlead, List.prefix_iff_eq_take.1 htaken, hlength]
  rwa [hsame]

/-- Bytes that are taken in two steps are those of the one before those of the other. -/
theorem Reads.of_bind {step : Read α} {next : α → Read β} {front : List UInt8} {value : β}
    (h : Reads (step >>= next) front value) (hstep : Delimited step)
    (hnext : ∀ first, Delimited (next first)) :
    ∃ first lead back, front = lead ++ back ∧ Reads step lead first ∧
      Reads (next first) back value := by
  obtain ⟨reader, hreader⟩ := Reader.exists_rest_eq front
  have hok := h.accepts reader (hreader ▸ List.prefix_rfl)
  obtain ⟨first, middle, hfirst, hsecond⟩ := Read.bind_eq_ok hok
  obtain ⟨lead, hlead, rfl, hreads⟩ := hstep reader first middle hfirst
  obtain ⟨back, rfl⟩ := hreader ▸ hlead
  have hrest : (reader.forward lead.length).rest = back := by
    rw [Reader.rest_forward, hreader, List.drop_left]
  rw [List.length_append, ← Reader.forward_forward] at hsecond
  exact ⟨first, lead, back, rfl, hreads,
    (hnext first).reads (hrest ▸ List.prefix_rfl) hsecond⟩

/-- Of two fronts that a parser takes, neither is a part of the other. -/
theorem Reads.unique {step : Read α} {front lead : List UInt8} {value first : α}
    (h : Reads step front value) (hfirst : Reads step lead first) (hlead : lead <+: front) :
    front = lead ∧ value = first := by
  obtain ⟨reader, rfl⟩ := Reader.exists_rest_eq front
  have hok := h.accepts reader List.prefix_rfl
  rw [hfirst.accepts reader hlead] at hok
  obtain ⟨hvalue, hafter⟩ := EStateM.Result.ok.inj hok
  have hposition := congrArg Reader.position hafter
  rw [Reader.position_forward hlead.length_le, Reader.position_forward (Nat.le_refl _)] at hposition
  exact ⟨(hlead.eq_of_length (Nat.add_left_cancel hposition)).symm, hvalue.symm⟩

theorem Reads.of_pure {front : List UInt8} {first value : α}
    (h : Reads (Pure.pure first) front value) : front = [] ∧ value = first :=
  h.unique (Reads.pure first) List.nil_prefix

theorem Yields.pure {property : α → Prop} {value : α} (h : property value) :
    Yields (Pure.pure value) property := by
  intro reader value' after hok
  obtain ⟨rfl, -⟩ : value = value' ∧ reader = after := by
    simpa [Pure.pure, EStateM.pure] using hok
  exact h

theorem Yields.throw {property : α → Prop} (error : Error) :
    Yields (MonadExcept.throw error : Read α) property := by
  intro reader value after hok
  exact absurd (show EStateM.Result.error error reader = .ok value after from hok) (by simp)

theorem Yields.bind {step : Read α} {next : α → Read β} {property : α → Prop}
    {property' : β → Prop} (h : Yields step property)
    (hnext : ∀ first, property first → Yields (next first) property') :
    Yields (step >>= next) property' := by
  intro reader value after hok
  obtain ⟨first, middle, hfirst, hsecond⟩ := Read.bind_eq_ok hok
  exact hnext first (h reader first middle hfirst) middle value after hsecond

theorem Yields.throw_bind {property : β → Prop} (error : Error) (next : α → Read β) :
    Yields ((MonadExcept.throw error : Read α) >>= next) property :=
  Yields.throw error

theorem Yields.any (step : Read α) : Yields step fun _ => True :=
  fun _ _ _ _ => trivial

/-! ### Fields -/

variable {what : String}

theorem Reads.little (what : String) (front : List UInt8) :
    Reads (Read.little front.length what) front (Bytes.number front) where
  accepts reader hlead := by
    have htake : reader.rest.take front.length = front := (List.prefix_iff_eq_take.1 hlead).symm
    rw [Read.little, Reader.advance?_eq_some hlead.length_le]
    simp only
    rw [Bytes.leAt_eq_number]
    congr 2
  refuses reader hlead hne := by
    have hlt : reader.rest.length < front.length :=
      Nat.lt_of_le_of_ne hlead.length_le fun heq => hne (hlead.eq_of_length heq)
    exact ⟨.truncated what, reader, by rw [Read.little, Reader.advance?_eq_none hlt]⟩

theorem Reads.byte {value : Nat} (h : value < 256) :
    Reads (Read.byte what) [UInt8.ofNat value] value := by
  have hreads := Reads.little what [UInt8.ofNat value]
  rw [Bytes.number, Bytes.number_nil, UInt8.toNat_ofNat', Nat.mod_eq_of_lt h] at hreads
  exact hreads

theorem Reads.varint {front : List UInt8} {value : Nat}
    (h : Varint.decode front = some (value, front.length)) :
    Reads (Read.varint what) front value where
  accepts reader hlead := by
    obtain ⟨tail, htail⟩ := hlead
    have hmax := (Varint.decode_length_le h).2
    have hwindow : reader.window = front ++ tail.take (Varint.maxLength - front.length) := by
      rw [Reader.window_eq, ← htail, List.take_append, List.take_of_length_le hmax]
    have hle : front.length ≤ reader.rest.length := by
      rw [← htail, List.length_append]
      omega
    simp only [Read.varint, hwindow, Varint.decode_append h, Reader.advance?_eq_some hle]
  refuses reader hlead hne := by
    have hmax := (Varint.decode_length_le h).2
    have hwindow : reader.window = reader.rest := by
      rw [Reader.window_eq, List.take_of_length_le (Nat.le_trans hlead.length_le hmax)]
    refine ⟨.badVarint what, reader, ?_⟩
    simp only [Read.varint, hwindow, Varint.decode_eq_none_of_prefix h hlead hne]

theorem Reads.varint32 {front : List UInt8} {value : Nat}
    (h : Varint.decode front = some (value, front.length)) (hvalue : value < 2 ^ 32) :
    Reads (Read.varint32 what) front value := by
  refine (Reads.varint h).decide ?_
  rw [if_pos hvalue]
  exact Reads.pure value

theorem Reads.encoded {value : Nat} (h : value < Varint.bound) :
    Reads (Read.varint what) (Varint.encode value) value := by
  exact Reads.varint (Varint.decode_encode_self h)

theorem Reads.encoded32 {value : Nat} (h : value < 2 ^ 32) :
    Reads (Read.varint32 what) (Varint.encode value) value := by
  have hbound : value < Varint.bound := Nat.lt_trans h (by decide)
  exact Reads.varint32 (Varint.decode_encode_self hbound) h

theorem Reads.take (what : String) {count : Nat} (front : List UInt8) (h : front.length = count) :
    Reads (Read.take count what) front
      ⟨front.toByteArray, by rw [List.size_toByteArray, h]⟩ where
  accepts reader hlead := by
    have hle := hlead.length_le
    have hposition := reader.position_le
    rw [Reader.length_rest] at hle
    have hend : reader.position + count ≤ reader.bytes.size := by omega
    rw [Read.take, dif_pos hend]
    have hbytes : reader.bytes.extract reader.position (reader.position + count)
        = front.toByteArray := by
      apply ByteArray.ext
      apply Array.toList_inj.1
      rw [ByteArray.data_extract, Array.toList_extract, List.extract_eq_take_drop,
        Nat.add_sub_cancel_left, List.toList_data_toByteArray, ← h]
      exact (List.prefix_iff_eq_take.1 hlead).symm
    simp only [hbytes, Reader.forward, h, Nat.min_eq_left hend]
  refuses reader hlead hne := by
    have hlt : reader.rest.length < front.length :=
      Nat.lt_of_le_of_ne hlead.length_le fun heq => hne (hlead.eq_of_length heq)
    rw [Reader.length_rest] at hlt
    exact ⟨.short what count reader.remaining, reader, by rw [Read.take, dif_neg (by omega)]⟩

/-- A number of so many bytes is told by its digits. -/
theorem Reads.of_little {count value : Nat} {front : List UInt8}
    (h : Reads (Read.little count what) front value) : front = Bytes.digits value count := by
  obtain ⟨reader, rfl⟩ := Reader.exists_rest_eq front
  have hok := h.accepts reader List.prefix_rfl
  have hcount : count ≤ reader.rest.length := by
    refine Nat.le_of_not_lt fun hlt => ?_
    rw [Read.little, Reader.advance?_eq_none hlt] at hok
    exact absurd hok (by simp)
  have hreads := Reads.little what (reader.rest.take count)
  rw [List.length_take_of_le hcount] at hreads
  obtain ⟨hall, rfl⟩ := h.unique hreads (List.take_prefix ..)
  have hdigits := Bytes.digits_number (reader.rest.take count)
  rw [List.length_take_of_le hcount] at hdigits
  rw [hdigits, ← hall]

/-- Bytes are told by themselves. -/
theorem Reads.of_take {count : Nat} {front : List UInt8} {bytes : ByteArray}
    {hsize : bytes.size = count} (h : Reads (Read.take count what) front ⟨bytes, hsize⟩) :
    front = bytes.data.toList := by
  obtain ⟨reader, rfl⟩ := Reader.exists_rest_eq front
  have hok := h.accepts reader List.prefix_rfl
  have hcount : count ≤ reader.rest.length := by
    refine Nat.le_of_not_lt fun hlt => ?_
    have hposition := reader.position_le
    rw [Reader.length_rest] at hlt
    rw [Read.take, dif_neg (by omega)] at hok
    exact absurd hok (by simp)
  have hreads := Reads.take what (reader.rest.take count) (List.length_take_of_le hcount)
  obtain ⟨hall, hsame⟩ := h.unique hreads (List.take_prefix ..)
  have hbytes : bytes = (reader.rest.take count).toByteArray := congrArg Subtype.val hsame
  rw [hbytes, List.toList_data_toByteArray, ← hall]

theorem Delimited.little (count : Nat) : Delimited (Read.little count what) := by
  intro reader value after h
  by_cases hcount : count ≤ reader.rest.length
  · have hlength : (reader.rest.take count).length = count := List.length_take_of_le hcount
    have hreads := Reads.little what (reader.rest.take count)
    rw [hlength] at hreads
    exact hreads.delimits (List.take_prefix ..) h
  · rw [Read.little, Reader.advance?_eq_none (Nat.lt_of_not_le hcount)] at h
    exact absurd h (by simp)

theorem Delimited.byte : Delimited (Read.byte what) :=
  Delimited.little 1

/-- A number that a window starts with stands in front of what is left. -/
theorem Reader.decode_window {reader : Reader} {value length : Nat}
    (h : Varint.decode reader.window = some (value, length)) :
    reader.window.take length <+: reader.rest ∧ Varint.decode (reader.window.take length)
      = some (value, (reader.window.take length).length) := by
  constructor
  · refine (List.take_prefix ..).trans ?_
    rw [window_eq]
    exact List.take_prefix ..
  · rw [List.length_take_of_le (Varint.decode_length_le h).1]
    exact Varint.decode_take h

theorem Delimited.varint : Delimited (Read.varint what) := by
  intro reader value after h
  cases hd : Varint.decode reader.window with
  | none => simp [Read.varint, hd] at h
  | some answer =>
    obtain ⟨value', length⟩ := answer
    obtain ⟨hfront, hdecode⟩ := Reader.decode_window hd
    exact (Reads.varint hdecode).delimits hfront h

/-- A number is spelt by the bytes that it is read from. -/
theorem Reads.of_varint {front : List UInt8} {value : Nat}
    (h : Reads (Read.varint what) front value) :
    Varint.decode front = some (value, front.length) := by
  obtain ⟨reader, rfl⟩ := Reader.exists_rest_eq front
  have hok := h.accepts reader List.prefix_rfl
  cases hd : Varint.decode reader.window with
  | none => simp [Read.varint, hd] at hok
  | some answer =>
    obtain ⟨value', length⟩ := answer
    obtain ⟨hfront, hdecode⟩ := Reader.decode_window hd
    obtain ⟨hall, rfl⟩ := h.unique (Reads.varint hdecode) hfront
    rw [hall]
    exact hdecode

theorem Delimited.varint32 : Delimited (Read.varint32 what) := by
  refine Delimited.varint.bind fun value => ?_
  split
  · exact Delimited.pure value
  · exact Delimited.throw _

theorem Delimited.take (count : Nat) : Delimited (Read.take count what) := by
  intro reader value after h
  by_cases hcount : count ≤ reader.rest.length
  · have hreads := Reads.take what (reader.rest.take count) (List.length_take_of_le hcount)
    exact hreads.delimits (List.take_prefix ..) h
  · have := reader.position_le
    rw [Reader.length_rest] at hcount
    rw [Read.take, dif_neg (by omega)] at h
    exact absurd h (by simp)

theorem Takes.byte : Takes (Read.byte what) fun value front => front = [UInt8.ofNat value] :=
  Delimited.byte.takes.mono fun _ _ hreads => hreads.of_little

theorem Takes.varint : Takes (Read.varint what) fun value front =>
    Varint.decode front = some (value, front.length) :=
  Delimited.varint.takes.mono fun _ _ hreads => hreads.of_varint

theorem Takes.varint32 : Takes (Read.varint32 what) fun value front =>
    value < 2 ^ 32 ∧ Varint.decode front = some (value, front.length) := by
  refine Takes.varint.bind fun value lead hlead => ?_
  split
  next hvalue => exact Takes.pure ⟨hvalue, by rwa [List.append_nil]⟩
  next => exact Takes.throw _

theorem Takes.take (count : Nat) : Takes (Read.take count what) fun bytes front =>
    front = bytes.val.data.toList :=
  (Delimited.take count).takes.mono fun _ _ hreads => hreads.of_take

theorem Yields.little (count : Nat) : Yields (Read.little count what) (· < 256 ^ count) := by
  intro reader value after h
  rw [Read.little] at h
  split at h
  · obtain ⟨rfl, -⟩ := EStateM.Result.ok.inj h
    exact Bytes.leAt_lt _ _ _
  · exact absurd h (by simp)

theorem Yields.varint : Yields (Read.varint what) (· < Varint.bound) := by
  intro reader value after h
  rw [Read.varint] at h
  split at h
  next => exact absurd h (by simp)
  next value' length hdecode =>
    split at h
    next =>
      obtain ⟨rfl, -⟩ := EStateM.Result.ok.inj h
      exact Varint.decode_lt hdecode
    next => exact absurd h (by simp)

theorem Yields.varint32 : Yields (Read.varint32 what) (· < 2 ^ 32) := by
  refine (Yields.any _).bind fun value _ => ?_
  split
  next h => exact Yields.pure h
  next => exact Yields.throw _

end Postings
