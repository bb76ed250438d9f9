/-
The store that is built from a text.

Every line that lists items is encoded and inserted, into a factory that holds the empty list
already; then the factory is flushed into one file.  Taken together, the ids of the lines stand for
their sets, in the factory as in the store that is read back from the file; and a line that does
not list items ends it all before any file is touched.

* `Built`, `exists_factoryOfLines` — the factory of some sets, and the ids of these;
* `Built.exists_store`, `Built.ids_eq_iff` — its store, and what the ids tell;
* `storeLines`, `buildStore_eq` — what is done once the text is read;
* `buildStore_spec` — the outcome for any text;
* `buildStore_full` — a text with all items on its line.
-/
import Mathlib
import Postings.Proofs.Build.Spelling
import Postings.Proofs.Factory.Encoding
import Postings.Proofs.Host

namespace Postings

open Factory

variable {config : Config} {digest : Digest} {sets : List (List Item)} {ids : Array Nat}
  {factory : Factory}

/-! ### Sets as insertions -/

/-- Lists that can be encoded, one by one. -/
theorem exists_encodings (h : ∀ items ∈ sets, ∃ bytes, encodeItems config items = .ok bytes) :
    ∃ encoded : List ByteArray, sets.map (encodeItems config) = encoded.map .ok := by
  induction sets with
  | nil => exact ⟨[], rfl⟩
  | cons items rest ih =>
    obtain ⟨bytes, hbytes⟩ := h items (List.mem_cons_self ..)
    obtain ⟨encoded, hencoded⟩ := ih fun other hother => h other (List.mem_cons_of_mem _ hother)
    exact ⟨bytes :: encoded, by rw [List.map_cons, List.map_cons, hbytes, hencoded]⟩

/-- Adding sets is inserting their bytes. -/
theorem addLines_eq_ok {encoded : List ByteArray} {done : Array Nat} {final : Factory}
    (hconfig : factory.config = config) (hascend : ∀ items ∈ sets, Ascending items)
    (hencoded : sets.map (encodeItems config) = encoded.map .ok) (number : Nat)
    (h : insertEach encoded done factory = .ok ids final) :
    addLines number sets done factory = .ok (ids, final) := by
  induction sets generalizing encoded done factory number with
  | nil =>
    obtain rfl : encoded = [] := by simpa using hencoded.symm
    obtain ⟨rfl, rfl⟩ :=
      EStateM.Result.ok.inj (show EStateM.Result.ok done factory = .ok ids final from h)
    rfl
  | cons items rest ih =>
    cases encoded with
    | nil => exact absurd hencoded (by simp)
    | cons bytes encoded =>
      rw [List.map_cons, List.map_cons] at hencoded
      obtain ⟨hbytes, hrest⟩ := List.cons.inj hencoded
      have hadd : addItems items factory = insert bytes factory := by
        have hnone := firstDescent?_eq_none.2 (hascend items (List.mem_cons_self ..))
        rw [addItems_eq, bytesOfItems, hnone, hconfig]
        simp only [hbytes]
        rfl
      rw [insertEach] at h
      rw [addLines, hadd]
      cases hinsert : insert bytes factory with
      | error error middle =>
        rw [Factory.bind_of_error hinsert] at h
        exact absurd h (by simp)
      | ok id middle =>
        rw [Factory.bind_of_ok hinsert] at h
        exact ih ((config_of_insert hinsert).trans hconfig)
          (fun other hother => hascend other (List.mem_cons_of_mem _ hother)) hrest _ h

/-- A factory that holds sets under the ids that were answered for them. -/
structure Built (config : Config) (sets : List (List Item)) (ids : Array Nat)
    (factory : Factory) : Prop where
  intact : factory.Intact config
  indexed : factory.Indexed
  few : factory.offsets.size < 2 ^ 32
  size_ids : ids.size = sets.length
  stored : ∀ (position : Nat) items, sets[position]? = some items → ∃ id bytes,
    ids[position]? = some id ∧ encodeItems config items = .ok bytes ∧
    factory.stored? id = some bytes
  counted : factory.hits + factory.offsets.size = sets.length + 1

/-- Sets whose bytes are inserted into a new factory are held by it. -/
theorem built_of_insertEach {fingerprint : Fingerprint} {first final : Factory}
    {encoded : List ByteArray} (hblock : config.tuning.blockSize < 2 ^ 32)
    (hmake : make config fingerprint = .ok first)
    (hsets : ∀ items ∈ sets, Ascending items ∧ items.length < 2 ^ 32)
    (hencoded : sets.map (encodeItems config) = encoded.map .ok)
    (h : insertEach encoded #[] first = .ok ids final) (hfew : final.offsets.size < 2 ^ 32) :
    Built config sets ids final := by
  have hlength : sets.length = encoded.length := by
    simpa using congrArg List.length hencoded
  have hwhole : ∀ bytes ∈ encoded, Whole bytes := by
    intro bytes hbytes
    have hmem : (.ok bytes : Except Error ByteArray) ∈ sets.map (encodeItems config) :=
      hencoded ▸ List.mem_map_of_mem hbytes
    obtain ⟨items, hitems, hok⟩ := List.mem_map.1 hmem
    exact whole_of_encodeItems (hsets items hitems).2 (hsets items hitems).1 hblock hok
  have hindexed := indexed_of_make hmake
  obtain ⟨hsize, hstored⟩ := hindexed.stored_insertEach h
  refine ⟨?_, ?_, hfew, hsize.trans hlength.symm, fun position items hitems => ?_, ?_⟩
  · have hintact := preserves_insertEach #[] encoded hwhole first (intact_of_make hblock hmake)
    rwa [h] at hintact
  · have hextends := hindexed.extends_insertEach encoded #[]
    rw [h] at hextends
    exact hextends.indexed
  · have hat := congrArg (·[position]?) hencoded
    simp only [List.getElem?_map, hitems, Option.map_some] at hat
    obtain ⟨bytes, hbytes, hok⟩ := Option.map_eq_some_iff.1 hat.symm
    obtain ⟨id, hid, hentry⟩ := hstored position bytes hbytes
    exact ⟨id, bytes, hid, hok.symm, hentry⟩
  · -- The empty list was inserted first.
    obtain ⟨-, empty, -, hinsert⟩ := make_eq_ok.1 hmake
    obtain ⟨log, hlog, rfl, -⟩ := exists_inserts h
    have hlogged := (logged_blank config fingerprint).inserts (.cons hinsert hlog)
    rw [hlogged.hits_add_size, hlength, Log.handed, List.length_map, List.nil_append,
      List.length_cons]

/-- A factory takes any sets, as long as there is an id for each. -/
theorem exists_factoryOfLines (hzero : config.tuning.blockSize ≠ 0)
    (hblock : config.tuning.blockSize < 2 ^ 32)
    (hsets : ∀ items ∈ sets, Ascending items ∧ items.length < 2 ^ 32)
    (hfew : sets.length < 2 ^ 32 - 1) : ∃ ids factory,
      factoryOfLines config sets digest = .ok (ids, factory) ∧ Built config sets ids factory := by
  obtain ⟨encoded, hencoded⟩ : ∃ encoded : List ByteArray,
      sets.map (encodeItems config) = encoded.map .ok :=
    exists_encodings fun items hitems =>
      exists_encodeItems hzero hblock (hsets items hitems).2 (hsets items hitems).1
  obtain ⟨empty, hempty⟩ := exists_encodeItems hzero hblock
    (show ([] : List Item).length < 2 ^ 32 by decide) List.Pairwise.nil
  obtain ⟨first, hinsert, hone, -⟩ :=
    exists_insert_blank config (leadingFingerprint digest config.hashedBytes) empty
  have hmake : make config (leadingFingerprint digest config.hashedBytes) = .ok first :=
    make_eq_ok.2 ⟨hzero, empty, hempty, hinsert⟩
  have hlength : sets.length = encoded.length := by
    simpa using congrArg List.length hencoded
  obtain ⟨ids, final, hrun, hroom⟩ :=
    exists_insertEach (show first.offsets.size + encoded.length < 2 ^ 32 by omega) #[]
  refine ⟨ids, final, ?_, built_of_insertEach hblock hmake hsets hencoded hrun hroom⟩
  have hadd := addLines_eq_ok (config_of_make hmake) (fun items hitems => (hsets items hitems).1)
    hencoded 1 hrun
  rw [factoryOfLines, ofConfig, hmake]
  exact hadd

/-! ### The store of a factory with sets -/

namespace Built

/-- The store of the factory holds the sets under the same ids. -/
theorem exists_store (h : Built config sets ids factory)
    (hblock : config.tuning.blockSize < 2 ^ 32)
    (hsets : ∀ items ∈ sets, Ascending items ∧ items.length < 2 ^ 32)
    (hdata : factory.data.size < 2 ^ 63)
    (hfit : (config.tuning.fit factory.offsets.toList).toNat < 2 ^ 63) :
    ∃ bytes store, factory.flushTo ByteArray.empty = .ok (bytes, bytes.size) ∧
      Store.ofBytes bytes = .ok store ∧ store.size = factory.size ∧
      ∀ (position : Nat) items, sets[position]? = some items → ∃ id set,
        ids[position]? = some id ∧ store.load id = .ok set ∧ set.items = items := by
  obtain ⟨bytes, hflush⟩ := h.intact.laid.exists_flush h.few hdata
    (by rw [h.intact.config_eq]; exact hfit)
  obtain ⟨-, -, -, hflushTo⟩ := flush_eq_ok hflush
  obtain ⟨store, hopen, hmirrors⟩ :=
    h.intact.mirrors h.few (Nat.lt_trans hdata (by decide)) hflush
  refine ⟨bytes, store, ?_, hopen, hmirrors.size_eq, fun position items hitems => ?_⟩
  · have hall := hflushTo ByteArray.empty
    rwa [ByteArray.empty_append] at hall
  · obtain ⟨id, written, hid, hwritten, hstored⟩ := h.stored position items hitems
    obtain ⟨hascend, hfew⟩ := hsets items (List.mem_of_getElem? hitems)
    have hsize : store.size = factory.offsets.size := by
      rw [hmirrors.size_eq, size, Nat.mod_eq_of_lt h.few]
    obtain ⟨found, set, hfound, hraw, -, hload, -⟩ :=
      hmirrors.inside id (hsize ▸ lt_size_of_stored? hstored)
    obtain rfl := Option.some.inj (hstored.symm.trans hfound)
    refine ⟨id, set, hid, hload, ?_⟩
    -- The list that is loaded is the one that the bytes were made of.
    obtain ⟨raw, hraw', hset, -⟩ := Store.load_eq_ok.1 hload
    obtain rfl := Except.ok.inj (hraw.symm.trans hraw')
    obtain ⟨again, hagain, hsame⟩ := exists_of_encodeItems hfew hascend hblock hwritten
    rw [← hsame, Except.ok.inj ((ItemSet.ofBytes_eq_ok.1 hset).1.symm.trans hagain)]

/-- Where equal bytes share an id, so do equal sets, and no others. -/
theorem ids_eq_iff (h : Built config sets ids factory) (hdedup : config.deduplicate = true)
    (hblock : config.tuning.blockSize < 2 ^ 32)
    (hsets : ∀ items ∈ sets, Ascending items ∧ items.length < 2 ^ 32)
    {position other : Nat} {items items' : List Item} (hitems : sets[position]? = some items)
    (hother : sets[other]? = some items') : ids[position]? = ids[other]? ↔ items = items' := by
  obtain ⟨id, bytes, hid, hbytes, hstored⟩ := h.stored position items hitems
  obtain ⟨id', bytes', hid', hbytes', hstored'⟩ := h.stored other items' hother
  obtain ⟨hascend, hfew⟩ := hsets items (List.mem_of_getElem? hitems)
  obtain ⟨hascend', hfew'⟩ := hsets items' (List.mem_of_getElem? hother)
  rw [hid, hid', Option.some.injEq]
  constructor
  · rintro rfl
    obtain rfl := Option.some.inj (hstored.symm.trans hstored')
    exact encodeItems_inj hblock hfew hascend hfew' hascend' hbytes hbytes'
  · rintro rfl
    obtain rfl := Except.ok.inj (hbytes.symm.trans hbytes')
    exact h.indexed.unique (h.intact.config_eq ▸ hdedup) _ _ _ hstored hstored'

end Built

/-! ### Files -/

section Files

variable {desk : Desk} {input output source name text : String} {bytes : ByteArray}

/-- The file is written twice, the second time with the store. -/
theorem writeStore_eq (houtput : desk.locate output = .file name) {written : Nat}
    (hflush : factory.flushTo ByteArray.empty = .ok (bytes, written)) :
    (writeStore factory output : ExceptT Error (ExceptT Failure (StateM Desk)) Nat) desk
      = (.ok (.ok written), desk.put name bytes) := by
  rw [writeStore]
  refine (Desk.lift_bind (Desk.lift_eq (Desk.write_eq houtput ByteArray.empty))).trans ?_
  simp only [hflush]
  refine (Desk.lift_bind (Desk.lift_eq
    (Desk.write_eq (Desk.locate_eq_file houtput) bytes))).trans ?_
  rw [Desk.put_put]
  rfl

/-- Builds the store of some lines. -/
def storeLines (lines : List String) (output : String) (config : Config) (digest : Digest) :
    ExceptT Failure (StateM Desk) (Summary × Array Nat) := do
  let sets ← ExceptT.mk (pure (parseLines 1 lines []))
  let (ids, factory) ← ExceptT.mk (pure (factoryOfLines config sets digest))
  match ← (writeStore factory output).run with
  | .error error => throw ((Failure.ofError error).within s!"Failed to write {output}")
  | .ok bytes => return (⟨lines.length, factory.size, factory.hits, bytes⟩, ids)

/-- Once the text is read, and perhaps something printed, the store of its lines is built. -/
theorem buildStore_eq (hinput : desk.locate input = .file source)
    (hfile : desk.find? source = some text.toUTF8) (output : String) (config : Config)
    (digest : Digest) :
    ∃ middle : Desk, middle.files = desk.files ∧
      (buildStore input output config digest
          : ExceptT Failure (StateM Desk) (Summary × Array Nat)) desk
        = storeLines (Text.lines text) output config digest middle := by
  rw [buildStore, Desk.bind_of_ok (Desk.readText_eq hinput hfile)]
  simp only
  split
  · refine ⟨_, ?_, Desk.bind_of_ok (Desk.print_eq _)⟩
    rfl
  · exact ⟨desk, rfl, rfl⟩

theorem storeLines_of_error {lines : List String} {failure : Failure}
    (h : parseLines 1 lines [] = .error failure) :
    storeLines lines output config digest desk = (.error failure, desk) := by
  rw [storeLines, h]
  exact Desk.bind_of_error rfl

theorem storeLines_of_refused {lines : List String} {failure : Failure}
    (hsets : parseLines 1 lines [] = .ok sets)
    (hfactory : factoryOfLines config sets digest = .error failure) :
    storeLines lines output config digest desk = (.error failure, desk) := by
  rw [storeLines, hsets, Desk.answer_bind, hfactory]
  exact Desk.bind_of_error rfl

theorem storeLines_of_ok {lines : List String} (hsets : parseLines 1 lines [] = .ok sets)
    (hfactory : factoryOfLines config sets digest = .ok (ids, factory))
    (houtput : desk.locate output = .file name) {written : Nat}
    (hflush : factory.flushTo ByteArray.empty = .ok (bytes, written)) :
    storeLines lines output config digest desk
      = (.ok (⟨lines.length, factory.size, factory.hits, written⟩, ids), desk.put name bytes) := by
  rw [storeLines, hsets, Desk.answer_bind, hfactory, Desk.answer_bind]
  exact Desk.bind_of_ok (writeStore_eq houtput hflush)

/-- A text whose lines all list items, none of them every item there is, is built into a store that
holds the sets of the lines under the ids that are answered; of a text with a line that does not
list items nothing is written.  Block sizes are 32-bit numbers, and the offsets of the factory have
a table. -/
theorem buildStore_spec (config : Config) (digest : Digest) (desk : Desk)
    (input output source name text : String)
    (hinput : desk.locate input = .file source) (hfile : desk.find? source = some text.toUTF8)
    (houtput : desk.locate output = .file name) (hlines : (Text.lines text).length < 2 ^ 32 - 1)
    (hzero : config.tuning.blockSize ≠ 0) (hblock : config.tuning.blockSize < 2 ^ 32)
    (hbounds : ∀ sets ids factory, parseLines 1 (Text.lines text) [] = .ok sets →
      factoryOfLines config sets digest = .ok (ids, factory) →
      factory.data.size < 2 ^ 63 ∧
        (config.tuning.fit factory.offsets.toList).toNat < 2 ^ 63) :
    ((∀ line ∈ Text.lines text, Legible line ∧ ∃ item, ¬ Lists line item) →
      ∃ summary ids bytes store final,
      (buildStore input output config digest
          : ExceptT Failure (StateM Desk) (Summary × Array Nat)) desk
        = (.ok (summary, ids), final) ∧
      final.files = (desk.put name bytes).files ∧ summary.bytes = bytes.size ∧
      Store.ofBytes bytes = .ok store ∧ store.size = summary.distinct ∧
      summary.lines = (Text.lines text).length ∧ ids.size = (Text.lines text).length ∧
      (∀ (position : Nat) line, (Text.lines text)[position]? = some line → ∃ id set,
        ids[position]? = some id ∧ store.load id = .ok set ∧
        ∀ item, item ∈ set.items ↔ Lists line item) ∧
      summary.lines + 1 = summary.distinct + summary.hits ∧
      (config.deduplicate = true → ∀ (position other : Nat) line line',
        (Text.lines text)[position]? = some line → (Text.lines text)[other]? = some line' →
        (ids[position]? = ids[other]? ↔ ∀ item, Lists line item ↔ Lists line' item))) ∧
    ((∃ line ∈ Text.lines text, ¬ Legible line) → ∃ failure final,
      (buildStore input output config digest
          : ExceptT Failure (StateM Desk) (Summary × Array Nat)) desk
        = (.error failure, final) ∧ final.files = desk.files) := by
  obtain ⟨middle, hmiddle, hbuild⟩ := buildStore_eq hinput hfile output config digest
  rw [hbuild]
  rcases parseLines_cases 1 (Text.lines text) [] with
    ⟨sets, hsets, hon⟩ | ⟨failure, hfailure, line, hline, hbad⟩
  · rw [List.reverse_nil, List.nil_append] at hsets
    have hlegible : ∀ line ∈ Text.lines text, Legible line := by
      intro line hline
      obtain ⟨position, hposition⟩ := List.mem_iff_getElem?.1 hline
      obtain ⟨items, -, hset⟩ := getElem?_of_setOn hon hposition
      exact hset.legible
    refine ⟨fun hfew => ?_, fun ⟨line, hline, hbad⟩ => absurd (hlegible line hline) hbad⟩
    have hproper : ∀ items ∈ sets, Ascending items ∧ items.length < 2 ^ 32 := by
      intro items hitems
      obtain ⟨line, hline, hset⟩ := exists_line_of_mem hon hitems
      exact ⟨hset.ascending, hset.length_lt (hfew line hline).2⟩
    have hlength := hon.length_eq
    obtain ⟨ids, factory, hfactory, hbuilt⟩ :=
      exists_factoryOfLines hzero hblock hproper (hlength ▸ hlines)
    obtain ⟨hdata, hfit⟩ := hbounds sets ids factory hsets hfactory
    obtain ⟨bytes, store, hflush, hopen, hsize, hload⟩ :=
      hbuilt.exists_store hblock hproper hdata hfit
    refine ⟨_, ids, bytes, store, _, storeLines_of_ok hsets hfactory
      (Desk.locate_eq_file houtput) hflush, ?_, rfl, hopen, hsize, rfl, ?_, ?_, ?_, ?_⟩
    · simp only [Desk.put, hmiddle]
    · rw [hbuilt.size_ids, hlength]
    · intro position line hline
      obtain ⟨items, hitems, hset⟩ := getElem?_of_setOn hon hline
      obtain ⟨id, set, hid, hset', rfl⟩ := hload position items hitems
      exact ⟨id, set, hid, hset', hset.mem_iff⟩
    · show (Text.lines text).length + 1 = factory.size + factory.hits
      rw [size, Nat.mod_eq_of_lt hbuilt.few, Nat.add_comm _ factory.hits, hbuilt.counted, hlength]
    · intro hdedup position other line line' hline hline'
      obtain ⟨items, hitems, hset⟩ := getElem?_of_setOn hon hline
      obtain ⟨items', hitems', hset'⟩ := getElem?_of_setOn hon hline'
      rw [hbuilt.ids_eq_iff hdedup hblock hproper hitems hitems', hset.eq_iff hset']
  · refine ⟨fun hlegible => absurd (hlegible line hline).1 hbad, fun _ => ?_⟩
    exact ⟨failure, middle, storeLines_of_error hfailure, hmiddle⟩

/-- A text of three lines, two of which list the same items. -/
theorem buildStore_spec_native : ∃ desk : Desk, ∃ summary ids bytes store final,
    desk.files = [("in", "3 7\n\n7,3\n".toUTF8)] ∧
    (buildStore "in" "out"
        { codec := .native, tuning := { fit := fun _ => 5 }, deduplicate := false }
        (fun length _ => length)
      : ExceptT Failure (StateM Desk) (Summary × Array Nat)) desk = (.ok (summary, ids), final) ∧
    final.files = (desk.put "out" bytes).files ∧ Store.ofBytes bytes = .ok store ∧
    ids.size = 3 ∧ summary.lines + 1 = summary.distinct + summary.hits := by
  obtain ⟨text, htext⟩ : ∃ text, text = "3 7\n\n7,3\n" := ⟨_, rfl⟩
  obtain ⟨desk, hdesk⟩ : ∃ desk : Desk, desk = { files := [("in", text.toUTF8)] } := ⟨_, rfl⟩
  have hinput : desk.locate "in" = .file "in" := by rw [hdesk, htext]; cbv
  have houtput : desk.locate "out" = .file "out" := by rw [hdesk, htext]; cbv
  have hfile : desk.find? "in" = some text.toUTF8 := by rw [hdesk, htext]; cbv
  have hsets : parseLines 1 (Text.lines text) [] = .ok [[3, 7], [], [3, 7]] := by
    rw [htext]
    cbv
  have hsizes : (factoryOfLines
      { codec := .native, tuning := { fit := fun _ => 5 }, deduplicate := false }
      [[3, 7], [], [3, 7]] fun length _ => length).map (fun built => built.2.data.size)
        = .ok 36 := by
    cbv
  -- The sets that are read say what stands on the lines.
  have hon : List.Forall₂ SetOn (Text.lines text) [[3, 7], [], [3, 7]] := by
    rcases parseLines_cases 1 (Text.lines text) [] with ⟨sets, hread, hon⟩ | ⟨failure, hread, -⟩
    · obtain rfl := Except.ok.inj (hsets.symm.trans hread)
      exact hon
    · exact absurd (hsets.symm.trans hread) (by simp)
  have hlines : (Text.lines text).length = 3 := hon.length_eq
  have hlegible : ∀ line ∈ Text.lines text, Legible line ∧ ¬ Lists line 0 := by
    intro line hline
    obtain ⟨position, hposition⟩ := List.mem_iff_getElem?.1 hline
    obtain ⟨items, hitems, hset⟩ := getElem?_of_setOn hon hposition
    refine ⟨hset.legible, fun hzero => ?_⟩
    have hnone : ∀ items ∈ [[3, 7], [], [3, 7]], (0 : Item) ∉ items := by decide
    exact hnone items (List.mem_of_getElem? hitems) ((hset.mem_iff 0).2 hzero)
  obtain ⟨hok, -⟩ := buildStore_spec
    { codec := .native, tuning := { fit := fun _ => 5 }, deduplicate := false }
    (fun length _ => length) desk "in" "out" "in" "out" text hinput hfile houtput
    (by rw [hlines]; decide) (by decide) (by decide)
    fun sets ids factory hread hbuilt => by
      obtain rfl := Except.ok.inj (hsets.symm.trans hread)
      rw [hbuilt] at hsizes
      exact ⟨Nat.lt_of_le_of_lt (Nat.le_of_eq (Except.ok.inj hsizes)) (by decide),
        show (5 : UInt64).toNat < 2 ^ 63 by decide⟩
  obtain ⟨summary, ids, bytes, store, final, hrun, hfinal, -, hopen, -, -, hids, -, hcount, -⟩ :=
    hok fun line hline => ⟨(hlegible line hline).1, 0, (hlegible line hline).2⟩
  rw [hlines] at hids
  refine ⟨desk, summary, ids, bytes, store, final, ?_, hrun, hfinal, hopen, hids, hcount⟩
  rw [hdesk, htext]

/-- A table of residuals has no room for so many items. -/
theorem encodeItems_of_too_many {items : List Item} (hcodec : config.codec = .line)
    (hmany : 2 ^ 32 ≤ items.length) :
    encodeItems config items = .error (.overflow (.elements items.length)) := by
  have hline : encodeTagged items config.codec config.tuning
      = .error (.overflow (.elements items.length)) := by
    have hlength : 2 ^ 32 ≤ (items.map UInt32.toNat).length := by rwa [List.length_map]
    rw [hcodec, encodeTagged, Layout.Line.encode, Layout.Line.encodeAlong, if_pos hlength,
      List.length_map]
  rw [encodeItems_eq, written, hline]
  rfl

theorem factoryOfLines_allItems (digest : Digest) : factoryOfLines {} [allItems] digest
    = .error ((Failure.ofError (.overflow (.elements (2 ^ 32)))).within
        "Failed to encode line 1") := by
  obtain ⟨first, hmake⟩ : ∃ first, ofConfig {} digest = .ok first :=
    exists_make _ (by decide)
      (exists_encodeItems (by decide) (by decide) (by decide) List.Pairwise.nil)
  have hencode : encodeItems {} allItems = .error (.overflow (.elements (2 ^ 32))) := by
    rw [encodeItems_of_too_many rfl (Nat.le_of_eq length_allItems.symm), length_allItems]
  have hadd : addItems allItems first = .error (.overflow (.elements (2 ^ 32))) first := by
    rw [addItems_eq, bytesOfItems, firstDescent?_eq_none.2 ascending_allItems,
      config_of_make hmake, hencode]
    rfl
  rw [factoryOfLines, hmake]
  show addLines 1 [allItems] #[] first = _
  rw [addLines, hadd]
  rfl

/-- Every item there is on one line: the line lists items, and no store is built. -/
theorem buildStore_full : ∃ desk : Desk, ∃ failure final,
    desk.files = [("in", (spell allItems).toUTF8)] ∧
    Text.lines (spell allItems) = [spell allItems] ∧ Legible (spell allItems) ∧
    (∀ item, Lists (spell allItems) item) ∧
    (buildStore "in" "out" {} fun length _ => length
      : ExceptT Failure (StateM Desk) (Summary × Array Nat)) desk = (.error failure, final) ∧
    failure = (Failure.ofError (.overflow (.elements (2 ^ 32)))).within
      "Failed to encode line 1" ∧
    final.files = desk.files := by
  have hplace : ∀ text : String, ({ files := [("in", text.toUTF8)] } : Desk).locate "in"
      = .file "in" := fun text => by cbv
  have hfile : ∀ text : String, ({ files := [("in", text.toUTF8)] } : Desk).find? "in"
      = some text.toUTF8 := fun text => by cbv
  have hsome : allItems ≠ [] := List.ne_nil_of_mem (mem_allItems 0)
  have hsets := parseLines_spell ascending_allItems hsome
  have hlines := lines_spell hsome
  have hlegible := legible_spell allItems
  have hevery : ∀ item, Lists (spell allItems) item := fun item => lists_spell.2 (mem_allItems item)
  -- From here on the line is any text.
  generalize spell allItems = text at hsets hlines hlegible hevery ⊢
  obtain ⟨middle, hmiddle, hbuild⟩ := buildStore_eq (hplace text) (hfile text) "out" {}
    fun length _ => length
  refine ⟨_, _, middle, rfl, hlines, hlegible, hevery, ?_, rfl, hmiddle⟩
  rw [hbuild]
  exact storeLines_of_refused hsets (factoryOfLines_allItems _)

end Files

end Postings
