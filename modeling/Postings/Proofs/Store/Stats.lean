/-
What the totals over a store add up to.

Totals are counted in one pass over the lists, each in the totals of its own codec.  The lists of a
codec are those that a filter keeps, and the filters of all codecs share the lists out, so whatever
is counted by codec sums up to what is counted over all.  The bytes of the lists are those that the
table cuts the data into.  Only a table without a list cuts nothing, and a store with such a table
opens whatever its data are.

* `Stats.totals_foldl_add`, `Stats.byCodec_foldl_add` — the totals of every codec;
* `Store.addStats_eq_ok` — the pass over the lists;
* `Store.sum_size_lt`, `Store.Starts.map_toBytes` — the items can be counted, and the bytes of the
  lists are cut out of the data;
* `Store.stats_spec` — the totals of a store that opens.
-/
import Postings.Store.Stats
import Postings.Proofs.Store.Partition

namespace Postings

open Layout

/-! ### Totals of lists -/

namespace Totals

/-- The totals over some lists. -/
def ofSets (sets : List ItemSet) : Totals :=
  ⟨sets.length, (sets.map ItemSet.size).sum, (sets.map ItemSet.byteLength).sum⟩

theorem ofSets_cons (set : ItemSet) (rest : List ItemSet) :
    ofSets (set :: rest) = ⟨(ofSets rest).count + 1, set.size + (ofSets rest).elements,
      set.byteLength + (ofSets rest).bytes⟩ := rfl

theorem foldl_add (sets : List ItemSet) (totals : Totals) :
    sets.foldl add totals = ⟨totals.count + (ofSets sets).count,
      totals.elements + (ofSets sets).elements, totals.bytes + (ofSets sets).bytes⟩ := by
  induction sets generalizing totals with
  | nil => rfl
  | cons set rest ih =>
    rw [List.foldl_cons, ih, ofSets_cons, add, Nat.add_assoc, Nat.add_assoc, Nat.add_assoc,
      Nat.add_comm 1]

end Totals

/-- What adds nothing may be left out of a sum. -/
theorem sum_map_filter {α : Type} {entries : List α} {kept : α → Bool} {f : α → Nat}
    (h : ∀ entry ∈ entries, kept entry = false → f entry = 0) :
    ((entries.filter kept).map f).sum = (entries.map f).sum := by
  induction entries with
  | nil => rfl
  | cons entry rest ih =>
    obtain ⟨hentry, hrest⟩ := List.forall_mem_cons.1 h
    rw [List.map_cons, List.sum_cons, ← ih hrest]
    cases hkept : kept entry with
    | true => rw [List.filter_cons_of_pos hkept, List.map_cons, List.sum_cons]
    | false =>
      have hnot : ¬ kept entry = true := by simp [hkept]
      rw [List.filter_cons_of_neg hnot, hentry hkept, Nat.zero_add]

/-- The lists that are held in a codec. -/
def heldIn (codec : Codec) (sets : List ItemSet) : List ItemSet :=
  sets.filter fun set => codec = set.codec

/-- Every list is held in one codec. -/
theorem sum_heldIn (f : ItemSet → Nat) (sets : List ItemSet) :
    (Codec.all.map fun codec => ((heldIn codec sets).map f).sum).sum = (sets.map f).sum := by
  induction sets with
  | nil => rfl
  | cons set rest ih =>
    have hcons : ∀ codec, ((heldIn codec (set :: rest)).map f).sum
        = (if codec = set.codec then f set else 0) + ((heldIn codec rest).map f).sum := by
      intro codec
      rw [heldIn, List.filter_cons]
      by_cases hcodec : codec = set.codec
      · simp [hcodec, heldIn]
      · simp [hcodec, heldIn]
    have hone : (Codec.all.map fun codec => if codec = set.codec then f set else 0).sum
        = f set := by
      cases set.codec <;> simp [Codec.all]
    rw [List.map_congr_left fun codec _ => hcons codec, List.sum_map_add, hone, ih, List.map_cons,
      List.sum_cons]

namespace Stats

variable {sets : List ItemSet} {stats : Stats}

theorem totals_foldl_add (sets : List ItemSet) (stats : Stats) :
    (sets.foldl add stats).totals = stats.totals.map fun (codec, totals) =>
      (codec, (heldIn codec sets).foldl Totals.add totals) := by
  induction sets generalizing stats with
  | nil => simp [heldIn]
  | cons set rest ih =>
    rw [List.foldl_cons, ih, add, List.map_map]
    apply List.map_congr_left
    rintro ⟨codec, totals⟩ -
    simp only [Function.comp_apply, heldIn, List.filter_cons]
    by_cases hcodec : codec = set.codec
    · simp [hcodec]
    · simp [hcodec]

theorem totalElements_foldl_add (sets : List ItemSet) (stats : Stats) :
    (sets.foldl add stats).totalElements
      = stats.totalElements + (sets.map ItemSet.size).sum := by
  induction sets generalizing stats with
  | nil => rfl
  | cons set rest ih => rw [List.foldl_cons, ih, List.map_cons, List.sum_cons, add, Nat.add_assoc]

theorem largest_foldl_add (sets : List ItemSet) (stats : Stats) :
    (sets.foldl add stats).largest = (sets.map ItemSet.size).foldl max stats.largest := by
  induction sets generalizing stats with
  | nil => rfl
  | cons set rest ih => rw [List.foldl_cons, ih, List.map_cons, List.foldl_cons, add]

/-- What a list does not add to stays as it was. -/
theorem fixed_foldl_add (sets : List ItemSet) (stats : Stats) :
    (sets.foldl add stats).indexCount = stats.indexCount ∧
      (sets.foldl add stats).dataBytes = stats.dataBytes ∧
      (sets.foldl add stats).totalBytes = stats.totalBytes := by
  induction sets generalizing stats with
  | nil => exact ⟨rfl, rfl, rfl⟩
  | cons set rest ih => exact ih (stats.add set)

/-- The totals are those over some lists, and a codec has totals if it holds one of them. -/
structure Counts (stats : Stats) (sets : List ItemSet) : Prop where
  totalElements_eq : stats.totalElements = (sets.map ItemSet.size).sum
  largest_eq : stats.largest = (sets.map ItemSet.size).max?.getD 0
  mem_byCodec : ∀ codec totals, (codec, totals) ∈ stats.byCodec ↔
    totals = Totals.ofSets (heldIn codec sets) ∧ 0 < totals.count
  sum_count : (stats.byCodec.map (·.2.count)).sum = sets.length
  sum_elements : (stats.byCodec.map (·.2.elements)).sum = (sets.map ItemSet.size).sum
  sum_bytes : (stats.byCodec.map (·.2.bytes)).sum = (sets.map ItemSet.byteLength).sum

/-- The totals that no list was added to. -/
structure Fresh (stats : Stats) : Prop where
  totalElements_eq : stats.totalElements = 0
  largest_eq : stats.largest = 0
  totals_eq : stats.totals = Codec.all.map fun codec => (codec, {})

theorem Fresh.totals_foldl_add (h : stats.Fresh) (sets : List ItemSet) :
    (sets.foldl add stats).totals
      = Codec.all.map fun codec => (codec, Totals.ofSets (heldIn codec sets)) := by
  rw [Stats.totals_foldl_add, h.totals_eq, List.map_map]
  apply List.map_congr_left
  intro codec _
  simp [Totals.foldl_add]

/-- Codecs that hold no list have nothing to add. -/
theorem Fresh.sum_byCodec (h : stats.Fresh) (sets : List ItemSet) {f : Totals → Nat}
    {g : ItemSet → Nat} (hf : ∀ sets, f (Totals.ofSets sets) = (sets.map g).sum) :
    ((sets.foldl add stats).byCodec.map fun entry => f entry.2).sum = (sets.map g).sum := by
  rw [byCodec, sum_map_filter, h.totals_foldl_add, List.map_map, ← sum_heldIn]
  · simp only [Function.comp_def, hf]
  · -- A codec that is left out holds no list.
    intro entry hentry hcount
    rw [h.totals_foldl_add] at hentry
    obtain ⟨codec, -, rfl⟩ := List.mem_map.1 hentry
    have hempty : heldIn codec sets = [] :=
      List.eq_nil_of_length_eq_zero (Nat.eq_zero_of_not_pos (of_decide_eq_false hcount))
    rw [hf, hempty, List.map_nil, List.sum_nil]

theorem Fresh.counts (h : stats.Fresh) (sets : List ItemSet) :
    (sets.foldl add stats).Counts sets where
  totalElements_eq := by rw [totalElements_foldl_add, h.totalElements_eq, Nat.zero_add]
  largest_eq := by rw [largest_foldl_add, h.largest_eq, List.foldl_max, Nat.zero_max]
  mem_byCodec codec totals := by
    rw [byCodec, h.totals_foldl_add, List.mem_filter, List.mem_map, decide_eq_true_eq]
    refine and_congr_left fun _ => ?_
    constructor
    · rintro ⟨_, -, hpair⟩
      obtain ⟨rfl, rfl⟩ := Prod.mk.inj hpair
      rfl
    · rintro rfl
      exact ⟨codec, by cases codec <;> decide, rfl⟩
  sum_count := (h.sum_byCodec sets (g := fun _ => 1) (by simp [Totals.ofSets])).trans (by simp)
  sum_elements := h.sum_byCodec sets fun _ => rfl
  sum_bytes := h.sum_byCodec sets fun _ => rfl

end Stats

/-! ### Totals of a store -/

theorem Bytes.size_joined (parts : List ByteArray) :
    (joined parts).size = (parts.map ByteArray.size).sum := by
  induction parts with
  | nil => rfl
  | cons part rest ih =>
    rw [List.map_cons, List.sum_cons, ← ih, ← ByteArray.size_append]
    rfl

namespace Store

variable {store : Store} {bytes head table : ByteArray} {starts ids : List Nat}
  {sets : List ItemSet} {stats after : Stats}

/-- The pass succeeds when every list can be loaded, and adds them all. -/
theorem addStats_eq_ok : store.addStats ids stats = .ok after ↔
    ∃ sets, store.Loads ids sets ∧ after = sets.foldl Stats.add stats := by
  induction ids generalizing stats with
  | nil =>
    constructor
    · intro h
      exact ⟨[], .nil, (Except.ok.inj h).symm⟩
    · rintro ⟨sets, hsets, rfl⟩
      rw [List.forall₂_nil_left_iff.1 hsets]
      rfl
  | cons id rest ih =>
    rw [addStats]
    constructor
    · intro h
      split at h
      next set hset =>
        obtain ⟨sets, hsets, rfl⟩ := ih.1 h
        exact ⟨set :: sets, .cons hset hsets, rfl⟩
      next => exact absurd h (by simp)
    · rintro ⟨sets, hsets, rfl⟩
      cases hsets with
      | cons hset hrest =>
        rw [hset]
        exact ih.2 ⟨_, hrest, rfl⟩

/-- Counting starts with the numbers that the store tells without its lists. -/
theorem exists_fresh (h : store.stats = .ok stats) : ∃ sets fresh,
    store.Loads (List.range store.size) sets ∧ stats = sets.foldl Stats.add fresh ∧
      fresh.Fresh ∧ fresh.indexCount = store.size ∧ fresh.dataBytes = store.dataSize ∧
      fresh.totalBytes = store.totalSize := by
  obtain ⟨sets, hloads, hstats⟩ := addStats_eq_ok.1 h
  exact ⟨sets, _, hloads, hstats, ⟨rfl, rfl, rfl⟩, rfl, rfl, rfl⟩

theorem Loads.length_eq (h : store.Loads ids sets) : sets.length = ids.length :=
  (List.Forall₂.length_eq h).symm

/-- A list that is loaded fills its bytes. -/
theorem size_toBytes_of_load {id : Nat} {set : ItemSet} (h : store.load id = .ok set) :
    set.toBytes.size = set.byteLength := by
  obtain ⟨raw, hraw, -, hlength⟩ := load_eq_ok.1 h
  rw [hlength, Except.ok.inj (hraw.symm.trans (raw_of_load h))]

theorem Loads.sum_byteLength (h : store.Loads ids sets) :
    (sets.map ItemSet.byteLength).sum = (Bytes.joined (sets.map ItemSet.toBytes)).size := by
  rw [Bytes.size_joined, List.map_map]
  congr 1
  induction h with
  | nil => rfl
  | cons hload _ ih =>
    rw [List.map_cons, List.map_cons, ih, Function.comp_apply, size_toBytes_of_load hload]

/-- All items together can be counted in 64 bits. -/
theorem Loads.sum_size_lt (h : store.Loads ids sets) (hfew : ids.length < 2 ^ 32) :
    (sets.map ItemSet.size).sum < 2 ^ 64 := by
  have hsmall : ∀ size ∈ sets.map ItemSet.size, size ≤ 2 ^ 32 := by
    induction h with
    | nil => simp
    | cons hload _ ih =>
      obtain ⟨raw, -, hset, -⟩ := load_eq_ok.1 hload
      obtain ⟨-, _, -, -, hreadable, rfl⟩ :=
        ItemSet.ofTrustedBytes_eq_ok.1 (ItemSet.ofBytes_eq_ok.1 hset).1
      exact List.forall_mem_cons.2 ⟨Nat.le_of_lt hreadable.size_lt,
        ih (Nat.lt_of_succ_lt hfew)⟩
  have hsum := List.sum_le_card_nsmul _ _ hsmall
  rw [List.length_map, h.length_eq, smul_eq_mul] at hsum
  omega

theorem Parts.size_lt (h : store.Parts head table) : store.size < 2 ^ 32 :=
  (Line.yields_read _ _ _ (h.reads_table.accepts (Reader.ofBytes table) List.prefix_rfl)).1

/-- The data are the bytes behind the header. -/
theorem Parts.extract_data (h : store.Parts head table) :
    (head ++ store.data ++ table).extract Header.byteLength (Header.byteLength + store.dataSize)
      = store.data := by
  have hslice := (Bytes.slice_eq_ok.1 (Bytes.slice_append head store.data table)).2
  rwa [h.size_head, h.size_data] at hslice

/-- The bytes of the lists are those that the table cuts the data into. -/
theorem Starts.map_toBytes (h : store.Starts starts)
    (hloads : store.Loads (List.range store.size) sets) :
    sets.map ItemSet.toBytes = Bytes.cuts store.data starts := by
  obtain ⟨-, hload⟩ := List.forall₂_iff_get.1 hloads
  have hlength := hloads.length_eq
  rw [List.length_range] at hlength
  apply List.ext_getElem
  · rw [List.length_map, Bytes.length_cuts, h.length_eq, hlength]
  · intro id hid hcut
    rw [List.length_map] at hid
    obtain ⟨start, stop, -, -, -, -, hpart, hraw⟩ := h.raw_eq (hlength ▸ hid)
    have hset : store.load id = .ok sets[id] := by
      have hget := hload id (by rw [List.length_range]; omega) hid
      rwa [List.get_eq_getElem, List.getElem_range] at hget
    rw [List.getElem_map, Except.ok.inj ((raw_of_load hset).symm.trans hraw)]
    exact ((List.getElem?_eq_some_iff.1 hpart).2).symm

/-- Where there is a list, the first starts with the data, so that the lists fill them. -/
theorem Starts.joined_toBytes (h : store.Starts starts)
    (hloads : store.Loads (List.range store.size) sets) (hsome : 0 < store.size) :
    Bytes.joined (sets.map ItemSet.toBytes) = store.data := by
  have hhead := List.getElem?_eq_getElem (h.length_eq ▸ hsome)
  have hfirst : starts.headD store.data.size = 0 := by
    rw [List.headD_eq_head?_getD, List.head?_eq_getElem?, hhead, Option.getD_some]
    exact h.zero _ hhead
  rw [h.map_toBytes hloads, Bytes.joined_cuts h.cutting, hfirst, ByteArray.extract_zero_size]

/-- Totals that are counted for a store that opens are those over its lists, of which there are
as many as it says, with fewer than 2^64 items.  Their bytes are all data bytes, in order, unless
there is no list: then there may be data nevertheless, which no list has. -/
theorem stats_spec (hopen : ofBytes bytes = .ok store) (hstats : store.stats = .ok stats) :
    ∃ sets, store.Loads (List.range store.size) sets ∧ sets.length = store.size ∧
      stats.Counts sets ∧ stats.indexCount = store.size ∧ stats.totalElements < 2 ^ 64 ∧
      stats.totalBytes = bytes.size ∧ stats.dataBytes = store.dataSize ∧
      ((stats.byCodec.map (·.2.bytes)).sum = stats.dataBytes ↔
        0 < store.size ∨ stats.dataBytes = 0) ∧
      (0 < store.size → Bytes.joined (sets.map ItemSet.toBytes)
        = bytes.extract Header.byteLength (Header.byteLength + store.dataSize)) := by
  obtain ⟨sets, fresh, hloads, rfl, hfresh, hcount, hdata, htotal⟩ := exists_fresh hstats
  obtain ⟨head, table, hparts, hbytes, hwhole⟩ := exists_parts hopen
  obtain ⟨starts, hstarts⟩ := hparts.exists_starts
  obtain ⟨hcount', hdata', htotal'⟩ := Stats.fixed_foldl_add sets fresh
  have hlength : sets.length = store.size := by rw [hloads.length_eq, List.length_range]
  have hcounts := hfresh.counts sets
  refine ⟨sets, hloads, hlength, hcounts, hcount'.trans hcount, ?_,
    htotal'.trans (htotal.trans hwhole), hdata'.trans hdata, ?_, fun hsome => ?_⟩
  · rw [hcounts.totalElements_eq]
    exact hloads.sum_size_lt (by rw [List.length_range]; exact hparts.size_lt)
  · rw [hcounts.sum_bytes, hdata', hdata, hloads.sum_byteLength]
    rcases Nat.eq_zero_or_pos store.size with hnone | hsome
    · -- No list has bytes, and the data may be anything.
      rw [hnone] at hlength ⊢
      rw [List.eq_nil_of_length_eq_zero hlength]
      simp [Bytes.joined, eq_comm]
    · rw [hstarts.joined_toBytes hloads hsome, hstarts.size_data]
      exact iff_of_true rfl (.inl hsome)
  · rw [hstarts.joined_toBytes hloads hsome, hbytes, hparts.extract_data]

/-- Totals over a store that is known. -/
theorem exists_stats (bytes : ByteArray) (size dataBytes : Nat) (byCodec : List (Codec × Totals))
    (h : (do
        let store ← ofBytes bytes
        let stats ← store.stats
        return (store.size, stats.dataBytes, stats.byCodec))
      = Except.ok (size, dataBytes, byCodec)) :
    ∃ store stats, ofBytes bytes = .ok store ∧ store.stats = .ok stats ∧ store.size = size ∧
      stats.dataBytes = dataBytes ∧ stats.byCodec = byCodec := by
  obtain ⟨store, hopen, h⟩ := bind_eq_ok.1 h
  obtain ⟨stats, hstats, h⟩ := bind_eq_ok.1 h
  have hanswer := Except.ok.inj h
  simp only [Prod.mk.injEq] at hanswer
  exact ⟨store, stats, hopen, hstats, hanswer⟩

/-- The totals over the lists `[]` and `[3, 7]`, whose bytes are all data bytes. -/
theorem stats_spec_two : ∃ bytes store stats sets,
    bytes = [1, 1, 18, 0, 0, 0, 0, 0, 0, 0, 1, 0, 0, 0, 0, 1, 2, 0, 0, 0, 3, 0, 0, 0, 7, 0, 0, 0,
      2, 5, 2, 2, 9].toByteArray ∧
    ofBytes bytes = .ok store ∧ store.stats = .ok stats ∧ stats.byCodec = [(.native, ⟨2, 2, 18⟩)] ∧
    stats.Counts sets ∧ stats.indexCount = 2 ∧
    Bytes.joined (sets.map ItemSet.toBytes)
      = bytes.extract Header.byteLength (Header.byteLength + store.dataSize) := by
  obtain ⟨store, stats, hopen, hstats, hsize, -, hcodecs⟩ :=
    exists_stats [1, 1, 18, 0, 0, 0, 0, 0, 0, 0, 1, 0, 0, 0, 0, 1, 2, 0, 0, 0, 3, 0, 0, 0, 7, 0, 0,
      0, 2, 5, 2, 2, 9].toByteArray 2 18 [(.native, ⟨2, 2, 18⟩)] (by cbv)
  obtain ⟨sets, -, -, hcounts, hcount, -, -, -, -, hjoined⟩ := stats_spec hopen hstats
  exact ⟨_, store, stats, sets, rfl, hopen, hstats, hcodecs, hcounts, hcount.trans hsize,
    hjoined (hsize ▸ Nat.two_pos)⟩

/-- A table without a list behind five bytes of data.  The store opens and its totals are counted,
but the data bytes are those of no list. -/
theorem stats_without_list : ∃ store stats,
    ofBytes [1, 1, 5, 0, 0, 0, 0, 0, 0, 0, 1, 0, 0, 0, 0, 0].toByteArray = .ok store ∧
    store.stats = .ok stats ∧ store.size = 0 ∧ stats.dataBytes = 5 ∧
    (stats.byCodec.map (·.2.bytes)).sum = 0 := by
  obtain ⟨store, stats, hopen, hstats, hsize, hdata, hcodecs⟩ :=
    exists_stats [1, 1, 5, 0, 0, 0, 0, 0, 0, 0, 1, 0, 0, 0, 0, 0].toByteArray 0 5 [] (by cbv)
  refine ⟨store, stats, hopen, hstats, hsize, hdata, ?_⟩
  rw [hcodecs]
  rfl

end Store

end Postings
