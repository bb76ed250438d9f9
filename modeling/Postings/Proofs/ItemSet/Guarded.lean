/-
Posting lists read from bytes with every access guarded.

A list is parsed, and the order of its items is then checked in one pass, block by block where there
are blocks.  The pass goes over every list that could be parsed, so also over those that it refuses.

* `Form.guards_readTagged` — parsing never strays;
* `Scan.Gives`, `Scan.descentFrom?_eq` — a pass that gives items finds what is wrong with them;
* `Form.gives_scan` — the pass over a list that was parsed gives its items and never strays;
* `ItemSet.ofBytesGuarded_eq` — whatever the bytes are, reading them never strays;
* `ItemSet.ofBytes_faithful` — and they are refused, or read as a list that answers faithfully.
-/
import Postings.Proofs.ItemSet.Decode
import Postings.Proofs.Layout.Guarded

namespace Postings

open Layout

/-! ### Parsing -/

namespace Form

/-- Reads a list in the layout of a codec. -/
def readAsGuarded : Codec → Guarded Form
  | .native | .vector => return native (← Native.readGuarded)
  | .range => return range (← Progression.readGuarded)
  | .compact => return compact (← Compact.readGuarded)
  | .line => return line (← Ascent.readGuarded)
  | .frame => return frame (← Frame.readGuarded)

/-- Reads a tag and the list that it announces, from bytes that do not end here. -/
def readAnnouncedGuarded : Guarded Form := do
  let tag ← Guarded.byte "index tag"
  match Codec.ofTag? tag with
  | some codec => readAsGuarded codec
  | none => throw (.unknownTag tag)

/-- Reads a tag and the list that it announces. -/
def readTaggedGuarded : Guarded Form := do
  if (← Guarded.remaining) = 0 then throw (.corrupt .noBytes)
  readAnnouncedGuarded

theorem guards_readAs (codec : Codec) : Guards (readAsGuarded codec) (readAs codec) := by
  cases codec with
  | native => exact Native.guards_read.bind (Yields.any _) fun _ _ => Guards.pure _
  | vector => exact Native.guards_read.bind (Yields.any _) fun _ _ => Guards.pure _
  | range => exact Progression.guards_read.bind (Yields.any _) fun _ _ => Guards.pure _
  | compact => exact Compact.guards_read.bind (Yields.any _) fun _ _ => Guards.pure _
  | line => exact Ascent.guards_read.bind (Yields.any _) fun _ _ => Guards.pure _
  | frame => exact Frame.guards_read.bind (Yields.any _) fun _ _ => Guards.pure _

theorem guards_readAnnounced : Guards readAnnouncedGuarded readAnnounced := by
  refine (Guards.byte _).bind (Yields.any _) fun tag _ => ?_
  cases Codec.ofTag? tag with
  | some codec => exact guards_readAs codec
  | none => exact Guards.throw _

theorem guards_readTagged : Guards readTaggedGuarded readTagged := by
  refine Guards.remaining.bind (Yields.any _) fun left _ => ?_
  by_cases hzero : left = 0
  · simp only [if_pos hzero]
    exact (Guards.throw _).bind (Yields.any _) fun _ _ => guards_readAnnounced
  · simp only [if_neg hzero]
    exact guards_readAnnounced

end Form

/-! ### One pass over the items -/

/-- Where a pass over the items of a list stands. -/
inductive Scan where
  /-- At a position of a list with random access. -/
  | positions (size : Nat) (get? : Nat → Option Item) (position : Nat)
  /-- At a place in the items of a block, before the block `next`; `left` items are to come. -/
  | blocks (list : Frame) (next : Nat) (buffer : Array Item) (place left : Nat)

namespace Scan

/-- The next item and where the pass stands then. -/
def next? : Scan → Option (Option (Item × Scan))
  | positions size get? position =>
    if position < size then do
      let item ← get? position
      return some (item, positions size get? (position + 1))
    else some none
  | blocks list next buffer place left =>
    if place = buffer.size then
      if next = list.blocks.size then some none
      else do
        let block ← list.blocks[next]?
        let buffer ← block.items?
        let item ← buffer[0]?
        let left ← minus? left 1
        return some (item, blocks list (next + 1) buffer 1 left)
    else do
      let item ← buffer[place]?
      let left ← minus? left 1
      return some (item, blocks list next buffer (place + 1) left)

/-- The number of items to come. -/
def left : Scan → Nat
  | positions size _ position => size - position
  | blocks _ _ _ _ left => left

theorem left_lt {scan scan' : Scan} {item : Item} (h : scan.next? = some (some (item, scan'))) :
    scan'.left < scan.left := by
  cases scan with
  | positions size get? position =>
    rw [next?] at h
    split at h
    next hlt =>
      obtain ⟨found, -, hsome⟩ := Option.bind_eq_some_iff.1 h
      obtain ⟨-, rfl⟩ := Prod.mk.inj (Option.some.inj (Option.some.inj hsome))
      simp only [left]
      omega
    next => exact absurd h (by simp)
  | blocks list next buffer place count =>
    rw [next?] at h
    split at h
    · split at h
      · exact absurd h (by simp)
      · obtain ⟨block, -, h⟩ := Option.bind_eq_some_iff.1 h
        obtain ⟨decoded, -, h⟩ := Option.bind_eq_some_iff.1 h
        obtain ⟨found, -, h⟩ := Option.bind_eq_some_iff.1 h
        obtain ⟨⟨rest, hrest⟩, -, hsome⟩ := Option.bind_eq_some_iff.1 h
        obtain ⟨-, rfl⟩ := Prod.mk.inj (Option.some.inj (Option.some.inj hsome))
        simp only [left]
        omega
    · obtain ⟨found, -, h⟩ := Option.bind_eq_some_iff.1 h
      obtain ⟨⟨rest, hrest⟩, -, hsome⟩ := Option.bind_eq_some_iff.1 h
      obtain ⟨-, rfl⟩ := Prod.mk.inj (Option.some.inj (Option.some.inj hsome))
      simp only [left]
      omega

/-- The first descent among `previous` and the items to come, whose head stands at `position`. -/
def descentFrom? (scan : Scan) (previous : Item) (position : Nat) :
    Option (Option Source.Descent) :=
  match _h : scan.next? with
  | none => none
  | some none => some none
  | some (some (item, scan')) =>
    if previous < item then scan'.descentFrom? item (position + 1)
    else some (some ⟨item, position, previous⟩)
termination_by scan.left
decreasing_by exact left_lt _h

/-- The first descent among the items to come. -/
def descent? (scan : Scan) : Option (Option Source.Descent) := do
  match ← scan.next? with
  | none => return none
  | some (item, scan') => scan'.descentFrom? item 1

/-- A pass that never strays gives these items. -/
inductive Gives : Scan → List Item → Prop where
  | nil {scan : Scan} (h : scan.next? = some none) : Gives scan []
  | cons {scan scan' : Scan} {item : Item} {items : List Item}
    (h : scan.next? = some (some (item, scan'))) (hrest : Gives scan' items) :
    Gives scan (item :: items)

variable {scan : Scan} {items : List Item}

theorem descentFrom?_eq {σ : Type} [Source σ] {s : σ} (h : Gives scan items)
    (hitems : Source.toList s = items) (previous : Item) (position : Nat) :
    scan.descentFrom? previous position = some (Source.descentFrom? previous position s) := by
  induction h generalizing s previous position with
  | nil hnext =>
    rw [descentFrom?]
    split
    next hstray => exact absurd (hnext.symm.trans hstray) (by simp)
    next => rw [Source.descentFrom?_of_none (Source.toList_eq_nil.1 hitems)]
    next item scan' hsome => exact absurd (hnext.symm.trans hsome) (by simp)
  | cons hnext hrest ih =>
    obtain ⟨s', hs, hitems⟩ := Source.toList_eq_cons.1 hitems
    rw [descentFrom?]
    split
    next hstray => exact absurd (hnext.symm.trans hstray) (by simp)
    next hnone => exact absurd (hnext.symm.trans hnone) (by simp)
    next item scan' hsome =>
      obtain ⟨rfl, rfl⟩ := Prod.mk.inj (Option.some.inj (Option.some.inj (hnext.symm.trans hsome)))
      rw [Source.descentFrom?_of_some hs, ih hitems]
      split
      · rfl
      · rfl

theorem descent?_eq {σ : Type} [Source σ] {s : σ} (h : Gives scan items)
    (hitems : Source.toList s = items) : scan.descent? = some (Source.descent? s) := by
  cases h with
  | nil hnext =>
    rw [descent?, hnext, Source.descent?, Source.toList_eq_nil.1 hitems]
    rfl
  | cons hnext hrest =>
    obtain ⟨s', hs, hitems⟩ := Source.toList_eq_cons.1 hitems
    rw [descent?, hnext, Source.descent?, hs]
    exact descentFrom?_eq hrest hitems _ _

/-- Positions read one after the other. -/
theorem gives_positions {size : Nat} {get : Fin size → Item} {get? : Nat → Option Item}
    (h : ∀ position : Fin size, get? position = some (get position)) (position : Nat) :
    Gives (positions size get? position) ((List.ofFn get).drop position) := by
  generalize hleft : size - position = left
  induction left generalizing position with
  | zero =>
    rw [List.drop_eq_nil_of_le (by rw [List.length_ofFn]; omega)]
    exact .nil (if_neg (by omega))
  | succ left ih =>
    have hlt : position < size := by omega
    have hofFn : position < (List.ofFn get).length := by rwa [List.length_ofFn]
    rw [List.drop_eq_getElem_cons hofFn, List.getElem_ofFn]
    refine .cons ?_ (ih (position + 1) (by omega))
    rw [next?, if_pos hlt, h ⟨position, hlt⟩]
    rfl

section Blocks

variable {list : Frame} {next place : Nat} {buffer : Array Item}

theorem next?_at_end (left : Nat) :
    (blocks list list.blocks.size buffer buffer.size left).next? = some none := by
  rw [next?, if_pos rfl, if_pos rfl]

/-- Inside the items of a block the pass moves on to the next of them. -/
theorem next?_inside (left : Nat) (hplace : place < buffer.size) :
    (blocks list next buffer place (left + 1)).next?
      = some (some (buffer[place], blocks list next buffer (place + 1) left)) := by
  rw [next?, if_neg (Nat.ne_of_lt hplace), Array.getElem?_eq_getElem hplace]
  simp only [minus?_eq (Nat.le_add_left 1 left)]
  rfl

/-- Behind the items of a block the pass decodes the next block. -/
theorem next?_behind (h : list.Inside) (left : Nat) (hnext : next < list.blocks.size) :
    (blocks list next buffer buffer.size (left + 1)).next?
      = some (some (list.blocks[next].first,
        blocks list (next + 1) list.blocks[next].items 1 left)) := by
  have hblock : list.blocks[next]? = some list.blocks[next] := Array.getElem?_eq_getElem hnext
  have hbits : list.blocks[next].gaps.bits ≤ 64 :=
    Nat.le_trans (h.bits_le _ (Array.getElem_mem hnext)) (by decide)
  have hfirst : list.blocks[next].items[0]? = some list.blocks[next].first := by
    rw [← Array.getElem?_toList, Block.items_eq_cons]
    rfl
  rw [next?, if_pos rfl, if_neg (Nat.ne_of_lt hnext), hblock]
  simp only [Option.bind_eq_bind, Option.bind_some, Block.items?_eq (h.gaps next hnext) hbits,
    hfirst, minus?_eq (Nat.le_add_left 1 left)]
  rfl

/-- Blocks decoded one after the other. -/
theorem gives_blocks (h : list.Inside) (items : List Item) (hnext : next ≤ list.blocks.size)
    (hplace : place ≤ buffer.size) (hitems : buffer.toList.drop place
      ++ (list.blocks.toList.drop next).flatMap (·.items.toList) = items) :
    Gives (blocks list next buffer place items.length) items := by
  induction items generalizing next place buffer with
  | nil =>
    obtain ⟨hbuffer, hrest⟩ := List.append_eq_nil_iff.1 hitems
    obtain rfl : place = buffer.size :=
      Nat.le_antisymm hplace (Array.length_toList ▸ List.drop_eq_nil_iff.1 hbuffer)
    obtain rfl | hlt := Nat.eq_or_lt_of_le hnext
    · exact .nil (next?_at_end _)
    · rw [List.drop_eq_getElem_cons hlt, List.flatMap_cons, Block.items_eq_cons] at hrest
      exact absurd hrest (by simp)
  | cons item items ih =>
    obtain rfl | hlt := Nat.eq_or_lt_of_le hplace
    · -- The buffer is used up, so the item is the first one of the next block.
      rw [← Array.length_toList, List.drop_length, List.nil_append] at hitems
      obtain rfl | hlt := Nat.eq_or_lt_of_le hnext
      · rw [← Array.length_toList, List.drop_length] at hitems
        exact absurd hitems (by simp)
      · rw [List.drop_eq_getElem_cons hlt, List.flatMap_cons, Block.items_eq_cons,
          List.cons_append] at hitems
        obtain ⟨rfl, hrest⟩ := List.cons.inj hitems
        refine .cons (next?_behind h _ hlt) (ih hlt ?_ ?_)
        · rw [Block.size_items]
          exact Nat.le_add_left ..
        · rw [Block.items_eq_cons]
          exact hrest
    · -- The item is the next one in the buffer.
      rw [List.drop_eq_getElem_cons hlt, List.cons_append] at hitems
      obtain ⟨rfl, hrest⟩ := List.cons.inj hitems
      exact .cons (next?_inside _ hlt) (ih hnext hlt hrest)

end Blocks

end Scan

/-- The pass that checks the order of a list; none is made where the order is in how a list is
built. -/
def Form.scan? : Form → Option Scan
  | native list => some (.positions list.size list.get? 0)
  | compact list => some (.positions list.size list.get? 0)
  | frame list => some (.blocks list 0 #[] 0 list.size)
  | vector _ | range _ | line _ => none

theorem Form.Readable.gives {form : Form} (h : form.Readable) {scan : Scan}
    (hscan : form.scan? = some scan) : scan.Gives form.items := by
  cases form with
  | vector items => exact absurd hscan (by simp [scan?])
  | range range => exact absurd hscan (by simp [scan?])
  | line list => exact absurd hscan (by simp [scan?])
  | native list =>
    obtain rfl := Option.some.inj hscan
    rw [items, cursor, Cursor.toList_scan]
    exact Scan.gives_positions list.get?_eq 0
  | compact list =>
    obtain rfl := Option.some.inj hscan
    rw [items, cursor, Cursor.toList_scan]
    exact Scan.gives_positions (Compact.get?_eq h.size_lt) 0
  | frame list =>
    obtain rfl := Option.some.inj hscan
    have hlength := length_items h.ne_vector
    have hsize : (frame list).size = list.size := rfl
    rw [← hsize, ← hlength]
    refine Scan.gives_blocks h.inside _ (Nat.zero_le _) (Nat.zero_le _) ?_
    rw [items, cursor, Cursor.toList_blocks]
    rfl

/-! ### Posting lists -/

namespace ItemSet

variable {bytes : ByteArray} {set : ItemSet}

/-- The list in front of bytes, together with the bytes that it takes. -/
def ofTrustedBytesGuarded (bytes : ByteArray) : ExceptT Error Option ItemSet := do
  let (form, reader) ← Form.readTaggedGuarded.run (Reader.ofBytes bytes)
  let encoded ← Bytes.part? bytes 0 reader.position
  return ⟨form, some encoded.val⟩

/-- Fails unless the items strictly ascend. -/
def validateGuarded (set : ItemSet) : ExceptT Error Option Unit :=
  match set.form.scan? with
  | none => pure ()
  | some scan => do
    match ← scan.descent? with
    | none => pure ()
    | some found =>
      throw (.corrupt
        (.descent set.form.codec found.item.toNat found.position found.previous.toNat))

/-- The list in front of any bytes, if there is one and its items strictly ascend. -/
def ofBytesGuarded (bytes : ByteArray) : ExceptT Error Option ItemSet := do
  let set ← ofTrustedBytesGuarded bytes
  validateGuarded set
  return set

theorem ofTrustedBytesGuarded_eq (bytes : ByteArray) :
    (ofTrustedBytesGuarded bytes).run = some (ofTrustedBytes bytes) := by
  rw [ofTrustedBytesGuarded, ExceptT.run_bind, Form.guards_readTagged.run, ofTrustedBytes]
  cases hread : Read.run Form.readTagged bytes with
  | error error => rfl
  | ok answer =>
    obtain ⟨form, reader⟩ := answer
    obtain ⟨front, -, rfl, -⟩ := Form.delimited_readTagged _ _ _ (Read.run_eq_ok.1 hread)
    have hpart : Bytes.part? bytes 0 ((Reader.ofBytes bytes).forward front.length).position = _ :=
      Bytes.part?_eq (by rw [Nat.zero_add]; exact Nat.min_le_right ..)
    refine (Guards.run_access hpart).trans ?_
    simp only [Nat.zero_add]
    rfl

theorem validateGuarded_eq (h : set.form.Readable) :
    (validateGuarded set).run = some set.validate := by
  obtain ⟨form, encoded⟩ := set
  obtain ⟨answer, hanswer⟩ : ∃ answer, Source.descent? form.cursor = answer := ⟨_, rfl⟩
  cases form with
  | vector items => rfl
  | range range => rfl
  | line list => rfl
  | native list | compact list | frame list =>
    -- The pass and the cursor give the same items, so they find the same descent.
    have hdescent := Scan.descent?_eq (h.gives rfl) (s := Form.cursor _) rfl
    rw [validateGuarded, Form.scan?]
    simp only
    rw [Guards.run_access hdescent, validate]
    simp only [hanswer]
    cases answer with
    | none => rfl
    | some found => rfl

theorem ofBytesGuarded_eq (bytes : ByteArray) :
    (ofBytesGuarded bytes).run = some (ofBytes bytes) := by
  rw [ofBytesGuarded, ExceptT.run_bind, ofTrustedBytesGuarded_eq, ofBytes]
  cases htrusted : ofTrustedBytes bytes with
  | error error => rfl
  | ok set =>
    obtain ⟨front, form, -, -, hreadable, rfl⟩ := ofTrustedBytes_eq_ok.1 htrusted
    show (validateGuarded _ >>= fun _ => pure _).run = some (validate _ >>= fun _ => pure _)
    rw [ExceptT.run_bind, validateGuarded_eq hreadable]
    cases validate ⟨form, some front.toByteArray⟩ with
    | error error => rfl
    | ok _ => rfl

/-- Everything that can be asked of a list is answered from one ascending list of items, of
which the list takes no more than `available` bytes. -/
structure Faithful (set : ItemSet) (available : Nat) : Prop where
  inside : set.form.Inside
  size_lt : set.size < 2 ^ 32
  byteLength_le : set.byteLength ≤ available
  ascending : Ascending set.items
  length_items : set.items.length = set.size
  get_inside : ∀ position (h : position < set.items.length),
    set.get position = .ok set.items[position]
  get_outside : ∀ position, set.size ≤ position →
    set.get position = .error (.outOfBounds position set.size)
  find?_eq_some : ∀ item position,
    set.find? item = some position ↔ set.get position = .ok item
  find?_eq_none : ∀ item, set.find? item = none ↔ item ∉ set.items
  answers : ∀ count, Source.answers set.cursor count
    = (set.items.take count).map some ++ List.replicate (count - set.size) none
  remaining : ∀ count,
    (Source.drop set.cursor count).remaining = set.size - min count set.size

/-- A list that is read from any bytes answers faithfully. -/
theorem faithful_of_ofBytes (h : ofBytes bytes = .ok set) : set.Faithful bytes.size := by
  obtain ⟨htrusted, hascend⟩ := ofBytes_eq_ok.1 h
  obtain ⟨front, form, -, hlead, hreadable, rfl⟩ := ofTrustedBytes_eq_ok.1 htrusted
  obtain ⟨set, hset⟩ : ∃ set : ItemSet, set = ⟨form, some front.toByteArray⟩ := ⟨_, rfl⟩
  rw [← hset] at hascend ⊢
  -- The size was read as a 32-bit number, so it counts the items.
  have hfew : set.items.length < 2 ^ 32 := by
    rw [items_eq, hset]
    exact hreadable.length_items_lt
  have hsize := size_eq hfew
  have hfind : ∀ item position,
      set.find? item = some position ↔ set.items[position]? = some item :=
    fun item position => find?_eq_some hfew hascend
  refine ⟨hset ▸ hreadable.inside, hsize ▸ hfew, ?_, hascend, hsize.symm, ?_, ?_, ?_, ?_, ?_, ?_⟩
  · have hle : front.length ≤ bytes.size := hlead.length_le
    rw [hset, byteLength]
    simpa using hle
  · exact fun position h => (get_eq_ok hfew).2 (List.getElem?_eq_getElem h)
  · exact fun position h => get_of_size_le h
  · exact fun item position => (hfind item position).trans (get_eq_ok hfew).symm
  · intro item
    rw [Option.eq_none_iff_forall_ne_some, List.mem_iff_getElem?]
    simp only [ne_eq, hfind, not_exists]
  · intro count
    rw [Source.answers_eq, toList_cursor, hsize]
  · intro count
    rw [← Cursor.length_toList, Source.toList_drop, toList_cursor, List.length_drop, hsize]
    omega

/-- Whatever the bytes are, no access strays while they are parsed and their order is checked, and
what could be parsed is there to be accessed; they are refused, or read as a list that answers
faithfully. -/
theorem ofBytes_faithful (bytes : ByteArray) :
    (ofBytesGuarded bytes).run = some (ofBytes bytes) ∧
      (∀ set, ofTrustedBytes bytes = .ok set → set.form.Inside) ∧
      ((∃ error, ofBytes bytes = .error error) ∨
        ∃ set, ofBytes bytes = .ok set ∧ set.Faithful bytes.size) := by
  refine ⟨ofBytesGuarded_eq bytes, fun set htrusted => ?_, ?_⟩
  · obtain ⟨front, form, -, -, hreadable, rfl⟩ := ofTrustedBytes_eq_ok.1 htrusted
    exact hreadable.inside
  · cases hread : ofBytes bytes with
    | error error => exact .inl ⟨error, rfl⟩
    | ok set => exact .inr ⟨set, rfl, faithful_of_ofBytes hread⟩

end ItemSet

end Postings
