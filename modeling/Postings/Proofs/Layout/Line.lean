/-
The regression-line layout read back, along any slope.

A number is the line's height plus its deviation, and its deviation is the
intercept plus its residual; the reader adds up the same three numbers, so the
slope cannot matter.  It matters for the width only, and for whether all residuals
fit: with items below 2^32 they always do, the largest by one.

* `Line.centre_spec` — the middle of the deviations;
* `Line.reads_encodeAlong` — what is written is read back, number by number;
* `Line.exists_encodeAlong` — fewer than 2^32 items below 2^32 are written along every slope;
* `Line.exists_encodeAlong_of_lt` — and numbers below 2^63 along every slope below 2^63;
* `Line.checkAscent_eq_ok`, `Ascent.reads_encodeAlong` — lists of ascending items.
-/
import Postings.Layout.Line
import Postings.Proofs.Bytes.Packing
import Postings.Proofs.Bytes.Reads

namespace Postings.Layout

namespace Line

/-! ### The middle of the deviations -/

theorem foldl_min_spec (first : Int) (rest : List Int) :
    rest.foldl min first ∈ first :: rest ∧
      ∀ value ∈ first :: rest, rest.foldl min first ≤ value := by
  induction rest generalizing first with
  | nil => simp
  | cons second rest ih =>
    obtain ⟨hmem, hle⟩ := ih (min first second)
    have hmin := hle (min first second) (List.mem_cons_self ..)
    rw [List.foldl_cons]
    constructor
    · rcases List.mem_cons.1 hmem with h | h
      · rw [h]
        rcases Int.le_total first second with h' | h'
        · rw [Int.min_eq_left h']
          exact List.mem_cons_self ..
        · rw [Int.min_eq_right h']
          exact List.mem_cons_of_mem _ (List.mem_cons_self ..)
      · exact List.mem_cons_of_mem _ (List.mem_cons_of_mem _ h)
    · intro value hv
      rcases List.mem_cons.1 hv with rfl | hv
      · omega
      · rcases List.mem_cons.1 hv with rfl | hv
        · omega
        · exact hle value (List.mem_cons_of_mem _ hv)

theorem foldl_max_eq (first : Int) (rest : List Int) :
    rest.foldl max first = -((rest.map (- ·)).foldl min (-first)) := by
  induction rest generalizing first with
  | nil => simp
  | cons second rest ih =>
    rw [List.foldl_cons, ih, List.map_cons, List.foldl_cons]
    congr 2
    omega

theorem foldl_max_spec (first : Int) (rest : List Int) :
    rest.foldl max first ∈ first :: rest ∧
      ∀ value ∈ first :: rest, value ≤ rest.foldl max first := by
  obtain ⟨hmem, hle⟩ := foldl_min_spec (-first) (rest.map (- ·))
  rw [← List.map_cons (f := (- ·))] at hmem hle
  rw [foldl_max_eq]
  constructor
  · obtain ⟨value, hv, heq⟩ := List.mem_map.1 hmem
    rw [← heq, Int.neg_neg]
    exact hv
  · intro value hv
    have := hle (-value) (List.mem_map.2 ⟨value, hv, rfl⟩)
    omega

/-- The centre lies half the spread above the least deviation, rounded down. -/
theorem centre_spec {deviations : List Int} (h : deviations ≠ []) :
    ∃ least greatest, least ∈ deviations ∧ greatest ∈ deviations ∧
      (∀ value ∈ deviations, least ≤ value ∧ value ≤ greatest) ∧
      centre deviations = least + (greatest - least) / 2 := by
  match deviations with
  | [] => exact absurd rfl h
  | first :: rest =>
    obtain ⟨hmin, hle⟩ := foldl_min_spec first rest
    obtain ⟨hmax, hge⟩ := foldl_max_spec first rest
    exact ⟨_, _, hmin, hmax, fun value hv => ⟨hle value hv, hge value hv⟩, rfl⟩

/-! ### Writing and reading -/

theorem fitsSigned_iff {value : Int} :
    fitsSigned value = true ↔ -2 ^ 63 ≤ value ∧ value < 2 ^ 63 := by
  rw [fitsSigned, Bool.and_eq_true, decide_eq_true_eq, decide_eq_true_eq]

theorem zigzag_lt {value : Int} (h : fitsSigned value = true) : Zigzag.encode value < 2 ^ 64 := by
  have := fitsSigned_iff.1 h
  unfold Zigzag.encode
  split
  · omega
  · omega

theorem reads_packed {what : String} {size bits : Nat} (bytes : List UInt8)
    (h : bytes.length = Packed.byteLength size bits) :
    Reads (PackedArray.read size bits what) bytes
      ⟨bytes.toByteArray, bits, size, by rw [List.size_toByteArray, h]⟩ :=
  (Reads.take _ bytes h).decide (Reads.pure _)

theorem delimited_packed {what : String} (size bits : Nat) :
    Delimited (PackedArray.read size bits what) :=
  (Delimited.take _).bind fun _ => Delimited.pure _

theorem delimited_read : Delimited read := by
  refine Delimited.varint32.bind fun count => ?_
  split
  · exact Delimited.pure _
  · exact Delimited.varint.bind fun _ => Delimited.pure _
  · refine Delimited.varint.bind fun slope => Delimited.varint.bind fun intercept =>
      Delimited.byte.bind fun bits => ?_
    split
    · exact (Delimited.throw _).bind fun _ =>
        (delimited_packed _ _).bind fun _ => Delimited.pure _
    · exact (delimited_packed _ _).bind fun _ => Delimited.pure _

theorem fitsSigned_decode {place : Nat} (h : place < 2 ^ 64) :
    fitsSigned (Zigzag.decode place) = true := by
  rw [fitsSigned_iff]
  unfold Zigzag.decode
  split
  · omega
  · omega

/-- The numbers that a value is the sum of fit 64 bits, and every residual is there. -/
def Inside : Line → Prop
  | empty => True
  | single value => value < 2 ^ 64
  | fitted slope intercept residuals =>
    slope < 2 ^ 64 ∧ fitsSigned intercept = true ∧ residuals.bits ≤ 64 ∧ residuals.Inside

theorem yields_packed {what : String} (size bits : Nat) :
    Yields (PackedArray.read size bits what) fun array => array.size = size ∧ array.bits = bits :=
  (Yields.any _).bind fun _ _ => Yields.pure ⟨rfl, rfl⟩

theorem yields_read : Yields read fun line => line.size < 2 ^ 32 ∧ line.Inside := by
  refine Yields.varint32.bind fun count hcount => ?_
  split
  · exact Yields.pure ⟨show 0 < 2 ^ 32 by decide, trivial⟩
  · exact Yields.varint.bind fun _ hvalue => Yields.pure ⟨show 1 < 2 ^ 32 by decide, hvalue⟩
  · refine Yields.varint.bind fun slope hslope => Yields.varint.bind fun intercept hintercept =>
      (Yields.any _).bind fun bits _ => ?_
    split
    · exact Yields.throw_bind _ _
    next hbits =>
      refine (yields_packed _ bits).bind fun residuals hresiduals => ?_
      obtain ⟨hsize, rfl⟩ := hresiduals
      have hwidth : residuals.bits ≤ 64 := by omega
      refine Yields.pure ⟨by rwa [size, hsize], hslope, fitsSigned_decode hintercept, hwidth,
        PackedArray.inside ?_⟩
      rw [hsize]
      exact Nat.lt_of_le_of_lt (Nat.mul_le_mul (Nat.le_of_lt hcount) hwidth) (by decide)

theorem length_deviations (slope : Nat) (values : List Nat) :
    (deviations slope values).length = values.length := by
  rw [deviations, List.length_mapIdx]

theorem getElem?_deviations (slope : Nat) {values : List Nat} {position value : Nat}
    (h : values[position]? = some value) :
    (deviations slope values)[position]?
      = some ((value : Int) - rise values.length slope position) := by
  rw [deviations, List.getElem?_mapIdx, h, Option.map_some]

/-- The written residuals: how far the deviations lie from the intercept, zigzagged. -/
def places (slope : Nat) (values : List Nat) : List Nat :=
  ((deviations slope values).map (· - centre (deviations slope values))).map Zigzag.encode

theorem length_places (slope : Nat) (values : List Nat) :
    (places slope values).length = values.length := by
  rw [places, List.length_map, List.length_map, length_deviations]

theorem getElem?_places (slope : Nat) {values : List Nat} {position value : Nat}
    (h : values[position]? = some value) :
    (places slope values)[position]?
      = some (Zigzag.encode ((value : Int) - rise values.length slope position
          - centre (deviations slope values))) := by
  rw [places, List.getElem?_map, List.getElem?_map, getElem?_deviations slope h, Option.map_some,
    Option.map_some]

/-- The width at which the residuals are packed. -/
def width (slope : Nat) (values : List Nat) : Nat :=
  residualBits (places slope values)

theorem width_pos (slope : Nat) (values : List Nat) : 1 ≤ width slope values :=
  Nat.succ_le_of_lt (Nat.succ_pos _)

theorem width_le {slope : Nat} {values : List Nat}
    (h : ∀ deviation ∈ deviations slope values,
      fitsSigned (deviation - centre (deviations slope values)) = true) :
    width slope values ≤ 64 := by
  refine Packed.bitsNeeded_le (Packed.foldl_max_lt (by decide) fun value hvalue => ?_) (by decide)
  simp only [places, List.map_map, List.mem_map] at hvalue
  obtain ⟨deviation, hdeviation, rfl⟩ := hvalue
  exact zigzag_lt (h deviation hdeviation)

theorem lt_two_pow_width {slope : Nat} {values : List Nat} {value : Nat}
    (h : value ∈ places slope values) : value < 2 ^ width slope values :=
  Packed.lt_two_pow_bitsNeeded (Packed.le_foldl_max (List.mem_cons_of_mem _ h))

/-- Writing along a line succeeds exactly when the intercept and all residuals fit. -/
theorem encodeFitted_eq_ok {slope : Nat} {values : List Nat} {out bytes : ByteArray} :
    encodeFitted slope values out = .ok bytes ↔
      fitsSigned (centre (deviations slope values)) = true ∧
      (∀ value ∈ deviations slope values,
        fitsSigned (value - centre (deviations slope values)) = true) ∧
      Packed.pack (places slope values) (width slope values)
        ((out ++ (Varint.encode slope
          ++ Varint.encode (Zigzag.encode (centre (deviations slope values)))).toByteArray).push
            (UInt8.ofNat (width slope values))) = bytes := by
  simp only [encodeFitted, width]
  split
  next hnot =>
    simp only [reduceCtorEq, false_iff, not_and]
    intro hfits
    simp [hfits] at hnot
  next hfits =>
    rw [Bool.not_eq_true, Bool.not_eq_false'] at hfits
    split
    next residual hfind =>
      simp only [reduceCtorEq, false_iff, not_and]
      intro _ hall
      have hmem := List.mem_of_find?_eq_some hfind
      have hnot := List.find?_some hfind
      obtain ⟨value, hv, rfl⟩ := List.mem_map.1 hmem
      simp [hall value hv] at hnot
    next hnone =>
      rw [List.find?_eq_none] at hnone
      simp only [Except.ok.injEq, hfits, true_and]
      refine (and_iff_right fun value hv => ?_).symm
      simpa using hnone _ (List.mem_map.2 ⟨value, hv, rfl⟩)

/-- A fitted line whose residuals are those of some numbers gives these numbers. -/
theorem valueAt_fitted {slope : Nat} {intercept : Int} {residuals : PackedArray}
    {position value : Nat} (hget : residuals.get position
      = Zigzag.encode ((value : Int) - rise residuals.size slope position - intercept)) :
    (fitted slope intercept residuals).valueAt position = value := by
  rw [valueAt, hget, Zigzag.decode_encode]
  omega

/-- A line whose fields are in range is read back from them. -/
theorem reads_fitted {slope count bits : Nat} {intercept : Int} {packed : List UInt8}
    (hslope : slope < 2 ^ 64) (hintercept : fitsSigned intercept = true) (hpos : 1 ≤ bits)
    (hbits : bits ≤ 64) (hmany : 2 ≤ count) (hcount : count < 2 ^ 32)
    (hsize : packed.length = Packed.byteLength count bits) :
    Reads read
      (Varint.encode count ++ (Varint.encode slope ++ (Varint.encode (Zigzag.encode intercept)
        ++ ([UInt8.ofNat bits] ++ packed))))
      (fitted slope intercept ⟨packed.toByteArray, bits, count,
        by rw [List.size_toByteArray, hsize]⟩) := by
  refine (Reads.encoded32 hcount).bind ?_
  split
  · omega
  · omega
  · refine (Reads.encoded hslope).bind ((Reads.encoded (zigzag_lt hintercept)).bind
      ((Reads.byte (by omega)).bind ?_))
    rw [if_neg (by omega)]
    simp only [Zigzag.decode_encode]
    exact (reads_packed packed hsize).map _

/-- What is written along a line is read as that line, with what is left over at its width. -/
theorem exists_fitted {slope : Nat} {values : List Nat} {out bytes : ByteArray}
    (hslope : slope < 2 ^ 64) (hmany : 2 ≤ values.length) (hlength : values.length < 2 ^ 32)
    (h : encodeFitted slope values out = .ok bytes) :
    ∃ (front : List UInt8) (residuals : PackedArray), bytes = out ++ front.toByteArray ∧
      Reads read (Varint.encode values.length ++ front)
        (fitted slope (centre (deviations slope values)) residuals) ∧
      residuals.size = values.length ∧ residuals.bits = width slope values ∧
      ∀ position place, (places slope values)[position]? = some place →
        residuals.get position = place := by
  obtain ⟨hintercept, hresiduals, rfl⟩ := encodeFitted_eq_ok.1 h
  have hpos := width_pos slope values
  have hle := width_le hresiduals
  have hwords : values.length * width slope values < 2 ^ 64 :=
    Nat.lt_of_le_of_lt (Nat.mul_le_mul (Nat.le_of_lt hlength) hle) (by decide)
  obtain ⟨packed, hpack, hcount, hnumber⟩ := Packed.pack_eq hle (places slope values)
    ((out ++ (Varint.encode slope
      ++ Varint.encode (Zigzag.encode (centre (deviations slope values)))).toByteArray).push
        (UInt8.ofNat (width slope values)))
  rw [length_places] at hcount
  have hsize : packed.length = Packed.byteLength values.length (width slope values) := by
    rw [hcount, Packed.byteLength_eq hwords]
  refine ⟨_, _, ?_, reads_fitted hslope hintercept hpos hle hmany hlength hsize, rfl, rfl, ?_⟩
  · rw [hpack]
    apply ByteArray.ext
    simp [ByteArray.data_append, List.data_toByteArray]
  · intro position place hplace
    rw [← length_places slope values] at hcount hwords
    exact PackedArray.get_eq hle hwords (fun _ hv => lt_two_pow_width hv) rfl hcount hnumber hplace

theorem reads_encodeFitted {slope : Nat} {values : List Nat} {out bytes : ByteArray}
    (hslope : slope < 2 ^ 64) (hmany : 2 ≤ values.length) (hlength : values.length < 2 ^ 32)
    (h : encodeFitted slope values out = .ok bytes) :
    ∃ (front : List UInt8) (line : Line), bytes = out ++ front.toByteArray ∧
      Reads read (Varint.encode values.length ++ front) line ∧ line.size = values.length ∧
      ∀ position (hp : position < values.length), line.valueAt position = values[position] := by
  obtain ⟨front, residuals, hbytes, hreads, hsize, -, hplaces⟩ :=
    exists_fitted hslope hmany hlength h
  refine ⟨front, _, hbytes, hreads, hsize, fun position hp => valueAt_fitted ?_⟩
  rw [hsize]
  exact hplaces position _ (getElem?_places slope (List.getElem?_eq_getElem hp))

/-- What is written along any slope is read back, number by number. -/
theorem reads_encodeAlong {slope : Nat} {values : List Nat} {out bytes : ByteArray}
    (hslope : slope < 2 ^ 64) (hvalues : ∀ value ∈ values, value < 2 ^ 64)
    (h : encodeAlong slope values out = .ok bytes) :
    ∃ (front : List UInt8) (line : Line), bytes = out ++ front.toByteArray ∧
      Reads read front line ∧ line.size = values.length ∧
      ∀ position (hp : position < values.length), line.valueAt position = values[position] := by
  rw [encodeAlong] at h
  split at h
  · exact absurd h (by simp)
  next hlength =>
    rw [Nat.not_le] at hlength
    simp only at h
    split at h
    · obtain rfl := Except.ok.inj h
      refine ⟨Varint.encode 0, empty, rfl, ?_, rfl,
        fun position hp => absurd hp (Nat.not_lt_zero _)⟩
      exact (Reads.encoded32 hlength).decide (Reads.pure empty)
    next value =>
      obtain rfl := Except.ok.inj h
      refine ⟨Varint.encode 1 ++ Varint.encode value, single value, ?_, ?_, rfl, ?_⟩
      · rw [List.toByteArray_append, ByteArray.append_assoc]
        rfl
      · exact (Reads.encoded32 hlength).bind
          ((Reads.encoded (hvalues value (List.mem_cons_self ..))).map _)
      · intro position hp
        obtain rfl : position = 0 := by simpa using hp
        rfl
    next hnil hone =>
      have hmany : 2 ≤ values.length := by
        rcases values with - | ⟨first, - | ⟨second, rest⟩⟩
        · exact absurd rfl hnil
        · exact absurd rfl (hone first)
        · simp
      obtain ⟨front, line, rfl, hreads, hsize, hvalue⟩ := reads_encodeFitted hslope hmany
        hlength h
      exact ⟨_, line, by rw [ByteArray.append_assoc, ← List.toByteArray_append], hreads, hsize,
        hvalue⟩

/-! ### Slopes always fit items -/

theorem get_eq_ok {line : Line} {position value : Nat} (h : position < line.size)
    (hvalue : line.valueAt position = value) (hlt : value < 2 ^ 64) :
    line.get position = .ok value := by
  have hfits : 0 ≤ line.valueAt position ∧ line.valueAt position < 2 ^ 64 := by
    rw [hvalue]
    omega
  rw [get, if_pos h, if_pos hfits, hvalue, Int.toNat_natCast]

/-- The line of any 64-bit slope over fewer than 2^32 positions stays this far below 2^64. -/
theorem rise_lt {count slope position : Nat} (hcount : count < 2 ^ 32) (hslope : slope < 2 ^ 64)
    (hposition : position < count) : rise count slope position < 2 ^ 64 - 2 ^ 32 - 1 := by
  have hmul : slope * position ≤ (2 ^ 64 - 1) * (count - 1) :=
    Nat.mul_le_mul (by omega) (by omega)
  rw [rise, Nat.div_lt_iff_lt_mul (by omega), Nat.mul_assoc]
  omega

theorem rise_zero {count slope : Nat} (h : 0 < count) : rise count slope 0 = 0 := by
  rw [rise, Nat.mul_zero, Nat.zero_add]
  exact Nat.div_eq_of_lt (by omega)

/-- The deviations of items: a spread of at most 2^64 - 3, reaching up to 0 or more. -/
theorem deviations_of_items {slope : Nat} {values : List Nat} (hlength : values.length < 2 ^ 32)
    (hslope : slope < 2 ^ 64) (hvalues : ∀ value ∈ values, value < 2 ^ 32)
    (hmany : 0 < values.length) :
    (∀ deviation ∈ deviations slope values, -(2 ^ 64 - 2 ^ 32 - 2) ≤ deviation ∧
      deviation ≤ 2 ^ 32 - 1) ∧ ∃ deviation ∈ deviations slope values, 0 ≤ deviation := by
  have hlen := length_deviations slope values
  constructor
  · intro deviation hd
    obtain ⟨position, hposition⟩ := List.mem_iff_getElem?.1 hd
    have hp : position < values.length := hlen ▸ (List.getElem?_eq_some_iff.1 hposition).1
    rw [getElem?_deviations slope (List.getElem?_eq_getElem hp)] at hposition
    obtain rfl := Option.some.inj hposition
    have hrise := rise_lt hlength hslope hp
    have hvalue := hvalues _ (List.getElem_mem hp)
    omega
  · have hfirst := getElem?_deviations slope (List.getElem?_eq_getElem hmany)
    refine ⟨_, List.mem_of_getElem? hfirst, ?_⟩
    rw [rise_zero hmany]
    omega

/-- Numbers are written along a slope if the intercept and all residuals fit. -/
theorem exists_encodeAlong_of_fits {slope : Nat} {values : List Nat}
    (hlength : values.length < 2 ^ 32)
    (hfits : 0 < values.length → fitsSigned (centre (deviations slope values)) = true ∧
      ∀ value ∈ deviations slope values,
        fitsSigned (value - centre (deviations slope values)) = true) (out : ByteArray) :
    ∃ bytes, encodeAlong slope values out = .ok bytes := by
  rw [encodeAlong, if_neg (Nat.not_le.2 hlength)]
  match values with
  | [] => exact ⟨_, rfl⟩
  | [value] => exact ⟨_, rfl⟩
  | first :: second :: rest =>
    obtain ⟨hintercept, hresiduals⟩ := hfits (Nat.zero_lt_succ _)
    exact ⟨_, encodeFitted_eq_ok.2 ⟨hintercept, hresiduals, rfl⟩⟩

/-- Fewer than 2^32 items below 2^32 can be written along every slope. -/
theorem exists_encodeAlong {slope : Nat} {values : List Nat} (hlength : values.length < 2 ^ 32)
    (hslope : slope < 2 ^ 64) (hvalues : ∀ value ∈ values, value < 2 ^ 32) (out : ByteArray) :
    ∃ bytes, encodeAlong slope values out = .ok bytes := by
  refine exists_encodeAlong_of_fits hlength (fun hmany => ?_) out
  obtain ⟨hbounds, high, hmem, hhigh⟩ := deviations_of_items hlength hslope hvalues hmany
  obtain ⟨least, greatest, hleast, hgreatest, hall, hcentre⟩ :=
    centre_spec (List.ne_nil_of_mem hmem)
  -- The spread is below 2^64 - 2, so half of it fits 64 bits with a sign; since some deviation
  -- is not negative, the centre is not below half the least one.
  have h1 := hbounds least hleast
  have h2 := hbounds greatest hgreatest
  have h3 := hall high hmem
  constructor
  · rw [hcentre, fitsSigned_iff]
    omega
  · intro value hv
    have h4 := hall value hv
    rw [hcentre, fitsSigned_iff]
    omega

theorem rise_le {count slope position : Nat} (hposition : position < count) :
    rise count slope position ≤ slope := by
  have hmul : slope * position ≤ slope * count := Nat.mul_le_mul_left slope (Nat.le_of_lt hposition)
  have htop : (slope + 1) * (2 * count) = 2 * (slope * count) + 2 * count := by
    rw [Nat.succ_mul, Nat.mul_left_comm]
  rw [rise, ← Nat.lt_succ_iff, Nat.div_lt_iff_lt_mul (by omega), Nat.succ_eq_add_one, htop,
    Nat.mul_assoc]
  omega

/-- Fewer than 2^32 numbers below 2^63 can be written along every slope below 2^63. -/
theorem exists_encodeAlong_of_lt {slope : Nat} {values : List Nat}
    (hlength : values.length < 2 ^ 32) (hslope : slope < 2 ^ 63)
    (hvalues : ∀ value ∈ values, value < 2 ^ 63) (out : ByteArray) :
    ∃ bytes, encodeAlong slope values out = .ok bytes := by
  refine exists_encodeAlong_of_fits hlength (fun hmany => ?_) out
  have hlen := length_deviations slope values
  have hbounds : ∀ deviation ∈ deviations slope values,
      -(2 ^ 63 - 1) ≤ deviation ∧ deviation ≤ 2 ^ 63 - 1 := by
    intro deviation hd
    obtain ⟨position, hposition⟩ := List.mem_iff_getElem?.1 hd
    have hp : position < values.length := hlen ▸ (List.getElem?_eq_some_iff.1 hposition).1
    rw [getElem?_deviations slope (List.getElem?_eq_getElem hp)] at hposition
    obtain rfl := Option.some.inj hposition
    have hrise : rise values.length slope position ≤ slope := rise_le hp
    have hvalue := hvalues _ (List.getElem_mem hp)
    omega
  obtain ⟨least, greatest, hleast, hgreatest, hall, hcentre⟩ :=
    centre_spec (List.ne_nil_of_length_pos (hlen ▸ hmany))
  -- The centre lies among the deviations, and no deviation is further from it than half the
  -- spread, rounded up.
  have h1 := hbounds least hleast
  have h2 := hbounds greatest hgreatest
  have h3 := hall least hleast
  constructor
  · rw [hcentre, fitsSigned_iff]
    omega
  · intro value hv
    have h4 := hall value hv
    rw [hcentre, fitsSigned_iff]
    omega

/-! ### Lists of items -/

theorem checkAscent_eq_ok (line : Line) (position : Nat) (previous : Int) :
    line.checkAscent position previous = .ok () ↔
      (∀ p, position ≤ p → p < line.size → previous < line.valueAt p ∧ line.valueAt p < 2 ^ 32) ∧
      ∀ p q, position ≤ p → p < q → q < line.size → line.valueAt p < line.valueAt q := by
  fun_induction checkAscent line position previous with
  | case1 position previous hlt value hbad =>
    simp only [reduceCtorEq, false_iff, not_and]
    intro hall
    have := hall position (Nat.le_refl _) hlt
    omega
  | case2 position previous hlt value hgood ih =>
    -- The value here is the bound that the rest is checked against.
    rw [ih]
    constructor
    · rintro ⟨hall, hascend⟩
      constructor
      · intro p hp hsize
        rcases Nat.eq_or_lt_of_le hp with rfl | hp
        · omega
        · have := hall p hp hsize
          omega
      · intro p q hp hpq hq
        rcases Nat.eq_or_lt_of_le hp with rfl | hp
        · exact (hall q hpq hq).1
        · exact hascend p q hp hpq hq
    · rintro ⟨hall, hascend⟩
      constructor
      · intro p hp hsize
        exact ⟨hascend position p (Nat.le_refl _) hp hsize, (hall p (by omega) hsize).2⟩
      · intro p q hp hpq hq
        exact hascend p q (by omega) hpq hq
  | case3 position previous hge =>
    simp only [true_iff]
    constructor
    · intro p hp hsize
      omega
    · intro p q hp hpq hq
      omega

end Line

namespace Ascent

theorem toNat_get (list : Ascent) (position : Fin list.size) :
    ((list.get position).toNat : Int) = list.line.valueAt position := by
  obtain ⟨hall, -⟩ := (Line.checkAscent_eq_ok list.line 0 (-1)).1 list.checked
  have := hall position (Nat.zero_le _) position.isLt
  rw [get, UInt32.toNat_ofNat', Nat.mod_eq_of_lt (by omega)]
  omega

theorem get_lt_get (list : Ascent) {first second : Fin list.size} (h : first < second) :
    list.get first < list.get second := by
  obtain ⟨-, hascend⟩ := (Line.checkAscent_eq_ok list.line 0 (-1)).1 list.checked
  have := hascend first second (Nat.zero_le _) h second.isLt
  rw [← toNat_get, ← toNat_get] at this
  rw [UInt32.lt_iff_toNat_lt]
  omega

theorem delimited_read : Delimited read := by
  refine Line.delimited_read.bind fun line => ?_
  split
  · exact Delimited.pure _
  · exact Delimited.throw _

theorem yields_read : Yields read fun list => list.size < 2 ^ 32 ∧ list.line.Inside := by
  refine Line.yields_read.bind fun line hline => ?_
  split
  · exact Yields.pure hline
  · exact Yields.throw _

theorem reads_of_line {front : List UInt8} {list : Ascent} (h : Reads Line.read front list.line) :
    Reads read front list := by
  refine h.decide ?_
  split
  · exact Reads.pure _
  next error herror =>
    rw [list.checked] at herror
    exact absurd herror (by simp)

/-- Ascending items are written along every slope and read back. -/
theorem reads_encodeAlong {items : List Item} (hlength : items.length < 2 ^ 32)
    (hascend : Ascending items) {slope : Nat} (hslope : slope < 2 ^ 64) (out : ByteArray) :
    ∃ (front : List UInt8) (list : Ascent),
      Line.encodeAlong slope (items.map UInt32.toNat) out = .ok (out ++ front.toByteArray) ∧
      Reads read front list ∧ list.size = items.length ∧
      ∀ (position : Fin list.size) (hp : position.val < items.length),
        list.get position = items[position.val] := by
  have hsmall : ∀ value ∈ items.map UInt32.toNat, value < 2 ^ 32 := by
    intro value hv
    obtain ⟨item, -, rfl⟩ := List.mem_map.1 hv
    exact UInt32.toNat_lt item
  have hlength' : (items.map UInt32.toNat).length < 2 ^ 32 := by rwa [List.length_map]
  obtain ⟨bytes, hbytes⟩ := Line.exists_encodeAlong hlength' hslope hsmall out
  obtain ⟨front, line, rfl, hreads, hsize, hvalue⟩ := Line.reads_encodeAlong hslope
    (fun value hv => Nat.lt_trans (hsmall value hv) (by decide)) hbytes
  rw [List.length_map] at hsize
  have hat : ∀ position (hp : position < items.length),
      line.valueAt position = (items[position].toNat : Int) := by
    intro position hp
    rw [hvalue position (by rwa [List.length_map]), List.getElem_map]
  -- The reader checks the ascent again, value by value.
  have hchecked : line.checkAscent 0 (-1) = .ok () := by
    rw [Line.checkAscent_eq_ok]
    constructor
    · intro p _ hp
      rw [hsize] at hp
      have := UInt32.toNat_lt items[p]
      rw [hat p hp]
      omega
    · intro p q _ hpq hq
      rw [hsize] at hq
      have hlt : items[p] < items[q] := List.pairwise_iff_getElem.1 hascend p q _ _ hpq
      rw [UInt32.lt_iff_toNat_lt] at hlt
      rw [hat p (by omega), hat q hq]
      omega
  refine ⟨front, ⟨line, hchecked⟩, hbytes, reads_of_line hreads, hsize, ?_⟩
  intro position hp
  have hget := toNat_get ⟨line, hchecked⟩ position
  simp only [hat position.val hp] at hget
  exact UInt32.toNat_inj.1 (Int.ofNat.inj hget)

end Ascent

end Postings.Layout
