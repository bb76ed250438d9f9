/-
The command that combines lists of a store.

The operands are the lists of the ids, each loaded once or found in the cache again, or there is an
id without a list and the command fails.  What an operation keeps of the operands is brought into
the codec that was asked for and printed; only a range may be refused, where the items are no
progression.

* `operands_cases` — the lists of the ids, or the first id without one;
* `openPresent_eq`, `runCombine_of_ok`, `runCombine_of_error` — what is left of the command once the
  store is open;
* `runCombine_spec` — the outcome of the command.
-/
import Mathlib
import Postings.Cli.Run
import Postings.Proofs.Algebra.Codecs
import Postings.Proofs.Algebra.Combine
import Postings.Proofs.Host
import Postings.Proofs.Obtainable

namespace Postings

theorem Store.Loads.complete {store : Store} {ids : List Nat} {sets : List ItemSet}
    (h : store.Loads ids sets) : ∀ set ∈ sets, set.Complete := by
  induction h with
  | nil => exact fun set hset => absurd hset List.not_mem_nil
  | cons hload _ ih => exact List.forall_mem_cons.2 ⟨complete_of_load hload, ih⟩

namespace Cli

variable {store : Store} {ids : List Nat} {desk : Desk} {path name : String} {bytes : ByteArray}

/-! ### Operands -/

/-- The operands are the lists of the ids, or the first id without a list ends the search.  What was
found before does not matter, since the cache gives what would be loaded. -/
theorem operands_cases (ids : List Nat) {cache : Cache} (hcache : store.Filled .recent cache) :
    (∃ sets, operands store ids cache = .ok sets ∧ store.Loads ids sets) ∨
      ∃ id ∈ ids, ∃ error, store.load id = .error error ∧ operands store ids cache
        = .error ((Failure.ofError error).within s!"Failed to load index {id}") := by
  induction ids generalizing cache with
  | nil => exact .inl ⟨[], rfl, .nil⟩
  | cons id rest ih =>
    obtain ⟨hload, hfilled⟩ := Store.getThrough_of_filled Caching.recalls_recent hcache id
    rw [← Store.get_eq_getThrough] at hload hfilled
    rw [operands]
    generalize store.get id cache = answer at hload hfilled
    obtain ⟨found, next⟩ := answer
    cases found with
    | error error => exact .inr ⟨id, List.mem_cons_self .., error, hload.symm, rfl⟩
    | ok set =>
      rcases ih hfilled with ⟨sets, hsets, hloads⟩ | ⟨failing, hfailing, error, herror, hfailed⟩
      · refine .inl ⟨set :: sets, ?_, .cons hload.symm hloads⟩
        simp only [hsets]
        rfl
      · refine .inr ⟨failing, List.mem_cons_of_mem _ hfailing, error, herror, ?_⟩
        simp only [hfailed]
        rfl

/-! ### The command -/

section Attempt

variable {ε α : Type} {failure : ε → Failure}

theorem attempt_ok (value : α) :
    (attempt failure (.ok value) : ExceptT Failure (StateM Desk) α) desk = (.ok value, desk) := rfl

theorem attempt_error (error : ε) :
    (attempt failure (.error error) : ExceptT Failure (StateM Desk) α) desk
      = (.error (failure error), desk) := rfl

end Attempt

/-- A file that is there is opened as a store. -/
theorem openPresent_eq (hpath : desk.locate path = .file name)
    (hfile : desk.find? name = some bytes) (hopen : Store.ofBytes bytes = .ok store) :
    (openPresent path : ExceptT Failure (StateM Desk) Store) desk = (.ok store, desk) := by
  rw [openPresent, Desk.bind_of_ok (Desk.present_eq hpath hfile)]
  show (openStore path : ExceptT Failure (StateM Desk) Store) desk = _
  rw [openStore, Desk.bind_of_ok (Desk.readRegion_eq hpath hfile),
    Desk.bind_of_ok (attempt_ok bytes), hopen]
  exact attempt_ok store

/-- The command brings the combined operands into a codec and prints them. -/
def printCombined (op : SetOp) (sets : List ItemSet) (codec : Codec) (limit : Nat) :
    ExceptT Failure (StateM Desk) Unit := do
  let result ← attempt
    (fun error => (Failure.ofError error).within s!"Result cannot be encoded as {codec.name}")
    ((ItemSet.combine op sets).recode codec {})
  Host.print (setText result limit)

variable {op : SetOp} {sets : List ItemSet} {codec : Codec} {limit : Nat}

theorem printCombined_of_ok {result : ItemSet}
    (h : (ItemSet.combine op sets).recode codec {} = .ok result) :
    printCombined op sets codec limit desk
      = (.ok (), { desk with printed := desk.printed ++ setText result limit }) := by
  rw [printCombined, h, Desk.bind_of_ok (attempt_ok result)]
  exact Desk.print_eq _

theorem printCombined_of_error {error : Error}
    (h : (ItemSet.combine op sets).recode codec {} = .error error) :
    printCombined op sets codec limit desk = (.error ((Failure.ofError error).within
      s!"Result cannot be encoded as {codec.name}"), desk) := by
  rw [printCombined, h, Desk.bind_of_error (attempt_error error)]

theorem runCombine_of_ok (hpath : desk.locate path = .file name)
    (hfile : desk.find? name = some bytes) (hopen : Store.ofBytes bytes = .ok store)
    (hsets : operands store ids {} = .ok sets) :
    (runCombine path op ids codec limit : ExceptT Failure (StateM Desk) Unit) desk
      = printCombined op sets codec limit desk := by
  rw [runCombine, Desk.bind_of_ok (openPresent_eq hpath hfile hopen), hsets,
    Desk.bind_of_ok (attempt_ok sets)]
  rfl

theorem runCombine_of_error (hpath : desk.locate path = .file name)
    (hfile : desk.find? name = some bytes) (hopen : Store.ofBytes bytes = .ok store)
    {failure : Failure} (hsets : operands store ids {} = .error failure) :
    (runCombine path op ids codec limit : ExceptT Failure (StateM Desk) Unit) desk
      = (.error failure, desk) := by
  rw [runCombine, Desk.bind_of_ok (openPresent_eq hpath hfile hopen), hsets,
    Desk.bind_of_error (attempt_error failure)]
  rfl

/-- Lists of a store are combined, whichever ids are given and however often.  Unless an id has no
list, the result is the ascending list of what the operation keeps of the operands, and it is
printed with the same items in the codec that was asked for; or that codec is a range and the items
are no progression.  No operation on the way is to come to all items. -/
theorem runCombine_spec (desk : Desk) (path name : String) (bytes : ByteArray) (store : Store)
    (op : SetOp) (ids : List Nat) (codec : Codec) (limit threshold : Nat)
    (hpath : desk.locate path = .file name) (hfile : desk.find? name = some bytes)
    (hopen : Store.ofBytes bytes = .ok store) (hids : ids ≠ [])
    (hfits : ∀ sets, store.Loads ids sets → (Schedule.combining threshold op sets).Fits op) :
    (∃ id ∈ ids, ∃ error, store.load id = .error error ∧
      (runCombine path op ids codec limit : ExceptT Failure (StateM Desk) Unit) desk
        = (.error ((Failure.ofError error).within s!"Failed to load index {id}"), desk)) ∨
    ∃ sets, store.Loads ids sets ∧ Ascending (ItemSet.combine op sets).items ∧
      (∀ item, item ∈ (ItemSet.combine op sets).items ↔ op.Combines sets item) ∧
      ((∃ result, (ItemSet.combine op sets).recode codec {} = .ok result ∧ result.codec = codec ∧
          Source.toList result.cursor = (ItemSet.combine op sets).items ∧
          (runCombine path op ids codec limit : ExceptT Failure (StateM Desk) Unit) desk
            = (.ok (), { desk with printed := desk.printed ++ setText result limit })) ∨
        codec = .range ∧ ¬ Layout.Progression.IsProgression (ItemSet.combine op sets).items ∧
          ∃ cause, (ItemSet.combine op sets).recode codec {} = .error (.unsupported cause) ∧
            (runCombine path op ids codec limit : ExceptT Failure (StateM Desk) Unit) desk
              = (.error ((Failure.ofError (.unsupported cause)).within
                  s!"Result cannot be encoded as {codec.name}"), desk)) := by
  have hfresh : store.Filled .recent {} := Store.filled_fresh
  rcases operands_cases ids hfresh with
    ⟨sets, hsets, hloads⟩ | ⟨id, hid, error, herror, hfailed⟩
  · right
    have hsome : sets ≠ [] := by
      rintro rfl
      exact hids (List.forall₂_nil_right_iff.1 hloads)
    obtain ⟨hvalid, hitems⟩ := ItemSet.valid_combine
      (fun set hset => (hloads.complete set hset).toValid) hsome (hfits sets hloads)
    have htaken : Taken _ codec {} _ := ItemSet.taken_recode hvalid (by decide)
    have hrun : (runCombine path op ids codec limit : ExceptT Failure (StateM Desk) Unit) desk
        = printCombined op sets codec limit desk := runCombine_of_ok hpath hfile hopen hsets
    refine ⟨sets, hloads, hvalid.ascending, hitems, ?_⟩
    by_cases hunsupported : Unsupported codec (ItemSet.combine op sets).items {}
    · obtain ⟨cause, hcause⟩ := htaken.refused hunsupported
      rcases hunsupported with ⟨hrange, hnot⟩ | ⟨-, hzero⟩
      · exact .inr ⟨hrange, hnot, cause, hcause, hrun.trans (printCombined_of_error hcause)⟩
      · exact absurd hzero (by decide)
    · obtain ⟨result, hresult, hcodec, hsame⟩ := htaken.held hunsupported
      exact .inl ⟨result, hresult, hcodec, hsame, hrun.trans (printCombined_of_ok hresult)⟩
  · exact .inl ⟨id, hid, error, herror, runCombine_of_error hpath hfile hopen hfailed⟩

/-- A store of two lists. -/
theorem exists_store : ∃ bytes store set, Store.ofBytes bytes = .ok store ∧
    store.load 1 = .ok set ∧ set.items = [3, 7] := by
  have hread : (do (← Store.ofBytes [1, 1, 18, 0, 0, 0, 0, 0, 0, 0, 1, 0, 0, 0, 0, 1,
      2, 0, 0, 0, 3, 0, 0, 0, 7, 0, 0, 0, 2, 5, 2, 2, 9].toByteArray).load 1).map ItemSet.items
        = .ok [3, 7] := by cbv
  cases hset : (do (← Store.ofBytes [1, 1, 18, 0, 0, 0, 0, 0, 0, 0, 1, 0, 0, 0, 0, 1,
      2, 0, 0, 0, 3, 0, 0, 0, 7, 0, 0, 0, 2, 5, 2, 2, 9].toByteArray).load 1) with
  | error error =>
    rw [hset] at hread
    exact absurd hread (by simp [Except.map])
  | ok set =>
    rw [hset] at hread
    obtain ⟨store, hopen, hload⟩ := bind_eq_ok.1 hset
    exact ⟨_, store, set, hopen, hload, Except.ok.inj hread⟩

/-- A list that is given three times is left of the symmetric difference, as a range. -/
theorem runCombine_spec_range : ∃ (desk : Desk) (bytes : ByteArray) (result : ItemSet),
    desk.files = [("s", bytes)] ∧
    (runCombine "s" .symmDiff [1, 1, 1] .range 10 : ExceptT Failure (StateM Desk) Unit) desk
      = (.ok (), { desk with printed := desk.printed ++ setText result 10 }) ∧
    result.codec = .range ∧ Source.toList result.cursor = [3, 7] := by
  obtain ⟨bytes, store, set, hopen, hload, hitems⟩ := exists_store
  obtain ⟨desk, hdesk⟩ : ∃ desk : Desk, desk = { files := [("s", bytes)] } := ⟨_, rfl⟩
  have hpath : desk.locate "s" = .file "s" := by rw [hdesk]; cbv
  have hfile : desk.find? "s" = some bytes := by rw [hdesk]; cbv
  have hloads : store.Loads [1, 1, 1] [set, set, set] :=
    .cons hload (.cons hload (.cons hload .nil))
  have hfits : ∀ sets, store.Loads [1, 1, 1] sets →
      (Schedule.combining 0 .symmDiff sets).Fits .symmDiff := by
    intro sets hsets
    obtain rfl := hsets.unique hloads
    have hvalid : set.Valid := (Store.complete_of_load hload).toValid
    have hsize : set.size = 2 := by rw [hvalid.size_eq, hitems]; rfl
    refine Schedule.fits_combining (fun other hother => (hloads.complete other hother).toValid) ?_
    rw [Schedule.total, List.map_cons, List.map_cons, List.map_cons, List.map_nil, hsize]
    decide
  rcases runCombine_spec desk "s" "s" bytes store .symmDiff [1, 1, 1] .range 10 0 hpath hfile hopen
    (by decide) hfits with ⟨id, hid, error, herror, -⟩ | ⟨sets, hsets, hascend, hmem, houtcome⟩
  · simp only [List.mem_cons, List.not_mem_nil, or_false, or_self] at hid
    rw [hid, hload] at herror
    exact absurd herror (by simp)
  · obtain rfl := hsets.unique hloads
    have hcombined : (ItemSet.combine .symmDiff [set, set, set]).items = [3, 7] := by
      refine ascending_ext hascend (by decide) fun item => ?_
      rw [hmem, SetOp.Combines, ← hitems]
      by_cases hitem : item ∈ set.items
      · simp [hitem]
        decide
      · simp [hitem]
    rw [hcombined] at houtcome
    rcases houtcome with ⟨result, -, hcodec, hresult, hrun⟩ | ⟨-, hnot, -⟩
    · exact ⟨desk, bytes, result, by rw [hdesk], hrun, hcodec, hresult⟩
    · exact absurd (Layout.Progression.isProgression_cons_cons.2 (by decide)) hnot

end Cli

end Postings
