/-
  The byte form of a request for the missing transactions of a compact block
  (src/blockencodings.h): growing 16-bit positions, written as the distance to
  the position before.
-/
import Rcoin.Unserialize

namespace Rcoin

open Fallible List

structure BlockTransactionsRequest where
  blockhash : Uint256
  indexes : List UInt16
  blockhash_lt : blockhash < 2 ^ 256
  deriving DecidableEq

namespace BlockTransactionsRequest

/-! ## Writing -/

/-- `indexes[i] - (i == 0 ? 0 : (indexes[i - 1] + 1))`, an `int` that becomes a
    `uint64_t`. -/
def difference (previous : Option UInt16) (index : UInt16) : Nat :=
  let base : Int := match previous with
    | none => 0
    | some previous => previous.toNat + 1
  ((index.toNat - base) % 2 ^ 64).toNat

def differences : Option UInt16 → List UInt16 → List Nat
  | _, [] => []
  | previous, index :: rest => difference previous index :: differences (some index) rest

def serialize (req : BlockTransactionsRequest) : List UInt8 :=
  leBytes 32 req.blockhash ++ writeCompactSize req.indexes.length ++
    (differences none req.indexes).flatMap writeCompactSize

/-! ## Reading -/

/-- `for (; i < indexes.size(); i++)`, with this many positions left. -/
def readIndexes : Nat → List UInt8 → Except IosFailure (List UInt16 × List UInt8)
  | 0, bytes => .ok ([], bytes)
  | n + 1, bytes => do
    let (index, bytes) ← readCompactSize bytes
    failIf (index > 65535) ⟨"index overflowed 16 bits"⟩
    let (indexes, bytes) ← readIndexes n bytes
    return (UInt16.ofNat index :: indexes, bytes)

/-- `while (indexes.size() < indexes_size)`: the vector grows by a thousand positions
    at a time.  Every pass reads one position at least. -/
def resizeLoop (indexes_size : Nat) : Nat → List UInt16 → List UInt8 →
    Except IosFailure (List UInt16 × List UInt8)
  | 0, indexes, bytes => .ok (indexes, bytes)
  | passes + 1, indexes, bytes =>
    if indexes.length < indexes_size then do
      let size := min (1000 + indexes.length) indexes_size
      let (more, bytes) ← readIndexes (size - indexes.length) bytes
      resizeLoop indexes_size passes (indexes ++ more) bytes
    else .ok (indexes, bytes)

/-- The loop that turns distances into positions; `offset` is a `uint16_t`. -/
def addOffsets : UInt16 → List UInt16 → Except IosFailure (List UInt16)
  | _, [] => .ok []
  | offset, index :: rest => do
    failIf (index.toNat + offset.toNat > 65535) ⟨"indexes overflowed 16 bits"⟩
    let index := index + offset
    let rest ← addOffsets (index + 1) rest
    return index :: rest

theorem ofLeBytes_take_lt (bytes : List UInt8) : ofLeBytes (bytes.take 32) < 2 ^ 256 := by
  have hlen : 8 * (bytes.take 32).length ≤ 256 := by
    rw [length_take]
    omega
  exact (ofLeBytes_lt_two_pow _).trans_le (Nat.pow_le_pow_right (by decide) hlen)

/-- Reading into a fresh request. -/
def unserialize (bytes : List UInt8) :
    Except IosFailure (BlockTransactionsRequest × List UInt8) := do
  failIf (bytes.length < 32) ⟨"CDataStream::read(): end of data"⟩
  let (indexes_size, rest) ← readCompactSize (bytes.drop 32)
  let (values, rest) ← resizeLoop indexes_size indexes_size [] rest
  let indexes ← addOffsets 0 values
  return (⟨ofLeBytes (bytes.take 32), indexes, ofLeBytes_take_lt bytes⟩, rest)

/-! ## The values that are read -/

/-- The byte form of distances. -/
def writeValues (values : List UInt16) : List UInt8 :=
  values.flatMap fun v => writeCompactSize v.toNat

theorem writeValues_append (values more : List UInt16) :
    writeValues (values ++ more) = writeValues values ++ writeValues more :=
  flatMap_append

variable {values : List UInt16}

variable {bytes rest : List UInt8}

theorem readIndexes_eq_ok {n : Nat} : readIndexes n bytes = .ok (values, rest) ↔ values.length = n ∧
      bytes = writeValues values ++ rest := by
  induction n generalizing bytes values with
  | zero =>
    constructor
    · intro h
      cases h
      exact ⟨rfl, rfl⟩
    · rintro ⟨hlen, rfl⟩
      rw [length_eq_zero_iff.mp hlen]
      rfl
  | succ n ih =>
    rw [readIndexes, bind_eq_ok]
    constructor
    · rintro ⟨⟨index, bytes'⟩, hread, h⟩
      obtain ⟨hmax, h⟩ := failIf_bind_eq_ok.mp h
      obtain ⟨⟨indexes, bytes''⟩, hrest, h⟩ := bind_eq_ok.mp h
      cases h
      obtain ⟨-, rfl⟩ := readCompactSize_eq_ok.mp hread
      obtain ⟨rfl, rfl⟩ := ih.mp hrest
      have hindex : (UInt16.ofNat index).toNat = index :=
        UInt16.toNat_ofNat_of_lt' (by simp at hmax; exact Nat.lt_succ_of_le hmax)
      refine ⟨rfl, ?_⟩
      rw [writeValues, writeValues, flatMap_cons, hindex, append_assoc]
    · rintro ⟨hlen, rfl⟩
      obtain ⟨v, values, rfl⟩ := exists_cons_of_length_eq_add_one hlen
      have hv : v.toNat < 65536 := v.toNat_lt
      refine ⟨(v.toNat, writeValues values ++ rest), ?_, ?_⟩
      · refine readCompactSize_eq_ok.mpr ⟨?_, ?_⟩
        · exact (Nat.le_of_lt hv).trans (by decide)
        · rw [writeValues, flatMap_cons, append_assoc, writeValues]
      · refine failIf_bind_eq_ok.mpr ⟨by simp; omega, ?_⟩
        refine bind_eq_ok.mpr ⟨(values, rest), ih.mpr ⟨by simpa using hlen, rfl⟩, ?_⟩
        rw [UInt16.ofNat_toNat]
        rfl

variable {indexes : List UInt16}

theorem resizeLoop_eq_ok {indexes_size passes : Nat}
    (hpasses : indexes_size ≤ indexes.length + passes) :
    resizeLoop indexes_size passes indexes bytes = .ok (values, rest) ↔
      ∃ more, values = indexes ++ more ∧ more.length = indexes_size - indexes.length ∧
        bytes = writeValues more ++ rest := by
  induction passes generalizing indexes bytes with
  | zero =>
    have hzero : indexes_size - indexes.length = 0 := by omega
    rw [resizeLoop, hzero]
    constructor
    · intro h
      cases h
      exact ⟨[], by simp, rfl, rfl⟩
    · rintro ⟨more, rfl, hlen, rfl⟩
      rw [length_eq_zero_iff.mp hlen, append_nil]
      rfl
  | succ passes ih =>
    rw [resizeLoop]
    split
    · next hlt =>
      obtain ⟨k, hk⟩ : ∃ k, k = min (1000 + indexes.length) indexes_size - indexes.length := ⟨_, rfl⟩
      rw [bind_eq_ok, ← hk]
      constructor
      · rintro ⟨⟨first, bytes'⟩, hread, h⟩
        obtain ⟨hfirst, rfl⟩ := readIndexes_eq_ok.mp hread
        have hlen : (indexes ++ first).length = indexes.length + k := by
          rw [length_append, hfirst]
        obtain ⟨more, rfl, hmore, rfl⟩ := (ih (by omega)).mp h
        -- the pass reads k values, the passes that are left read the rest
        refine ⟨first ++ more, by rw [append_assoc], ?_, ?_⟩
        · rw [length_append]
          omega
        · rw [writeValues_append, append_assoc]
      · rintro ⟨more, rfl, hmore, rfl⟩
        have hfirst : (more.take k).length = k := length_take_of_le (by omega)
        have hlen : (indexes ++ more.take k).length = indexes.length + k := by
          rw [length_append, hfirst]
        refine ⟨(more.take k, writeValues (more.drop k) ++ rest), ?_, ?_⟩
        · refine readIndexes_eq_ok.mpr ⟨hfirst, ?_⟩
          rw [← append_assoc, ← writeValues_append, take_append_drop]
        · refine (ih (by omega)).mpr ⟨more.drop k, ?_, ?_, rfl⟩
          · rw [append_assoc, take_append_drop]
          · rw [length_drop]
            omega
    · next hge =>
      have hzero : indexes_size - indexes.length = 0 := by omega
      rw [hzero]
      constructor
      · intro h
        cases h
        exact ⟨[], by simp, rfl, rfl⟩
      · rintro ⟨more, rfl, hlen, rfl⟩
        rw [length_eq_zero_iff.mp hlen, append_nil]
        rfl

variable {req : BlockTransactionsRequest}

theorem unserialize_eq_ok :
    unserialize bytes = .ok (req, rest) ↔ ∃ values,
      bytes = leBytes 32 req.blockhash ++ writeCompactSize values.length ++ writeValues values ++
        rest ∧ values.length ≤ MAX_SIZE ∧ addOffsets 0 values = .ok req.indexes := by
  constructor
  · intro h
    obtain ⟨hlen, h⟩ := failIf_bind_eq_ok.mp h
    obtain ⟨⟨indexes_size, bytes'⟩, hsize, h⟩ := bind_eq_ok.mp h
    obtain ⟨⟨values, rest'⟩, hvalues, h⟩ := bind_eq_ok.mp h
    obtain ⟨indexes, hindexes, h⟩ := bind_eq_ok.mp h
    cases h
    obtain ⟨hmax, hbytes⟩ := readCompactSize_eq_ok.mp hsize
    obtain ⟨more, hmore, hcount, rfl⟩ := (resizeLoop_eq_ok (by simp)).mp hvalues
    subst hmore hcount
    refine ⟨values, ?_, hmax, hindexes⟩
    have htake : (bytes.take 32).length = 32 :=
      length_take_of_le (by simpa using hlen)
    have hhash := leBytes_ofLeBytes (bytes.take 32)
    rw [htake] at hhash
    rw [hhash, append_assoc, append_assoc, ← hbytes, take_append_drop]
  · rintro ⟨values, rfl, hmax, hindexes⟩
    obtain ⟨blockhash, indexes, hlt⟩ := req
    have hlen : (leBytes 32 blockhash).length = 32 := length_leBytes ..
    simp only [append_assoc]
    refine failIf_bind_eq_ok.mpr ⟨by simp, ?_⟩
    refine bind_eq_ok.mpr ⟨_, readCompactSize_eq_ok.mpr ⟨hmax, rfl⟩, ?_⟩
    refine bind_eq_ok.mpr ⟨(values, rest), ?_, ?_⟩
    · exact (resizeLoop_eq_ok (by simp)).mpr ⟨values, rfl, rfl, rfl⟩
    · refine bind_eq_ok.mpr ⟨indexes, hindexes, ?_⟩
      have hhash : ofLeBytes ((leBytes 32 blockhash ++ (writeCompactSize values.length ++
          (writeValues values ++ rest))).take 32) = blockhash := by
        rw [take_left' hlen, ofLeBytes_leBytes hlt]
      simp only [hhash]
      rfl

/-! ## The positions -/

/-- The position behind the last one, in 16 bits. -/
def offsetBehind : Option UInt16 → UInt16
  | none => 0
  | some previous => previous + 1

/-- The position behind the last one does not overflow. -/
def Below : Option UInt16 → Prop
  | none => True
  | some previous => previous.toNat < 65535

theorem toNat_offsetBehind_some {previous : UInt16} (h : previous.toNat < 65535) :
    (offsetBehind (some previous)).toNat = previous.toNat + 1 := by
  exact Nat.mod_eq_of_lt (Nat.succ_lt_succ h)

variable {value : UInt16}

variable {offset : UInt16}

theorem toNat_add_of_le (hfit : value.toNat + offset.toNat ≤ 65535) :
    (value + offset).toNat = value.toNat + offset.toNat := by
  exact Nat.mod_eq_of_lt (Nat.lt_succ_of_le hfit)

theorem difference_add {previous : Option UInt16} (hprev : Below previous)
    (hfit : value.toNat + (offsetBehind previous).toNat ≤ 65535) :
    difference previous (value + offsetBehind previous) = value.toNat := by
  have hadd := toNat_add_of_le hfit
  cases previous with
  | none =>
    have hzero : (offsetBehind none).toNat = 0 := rfl
    simp only [difference]
    omega
  | some previous =>
    have hbehind := toNat_offsetBehind_some hprev
    simp only [difference]
    omega

theorem difference_max {previous index : UInt16} (h : previous.toNat = 65535) (value : UInt16) :
    difference (some previous) index ≠ value.toNat := by
  have hvalue : value.toNat < 65536 := value.toNat_lt
  have hindex : index.toNat < 65536 := index.toNat_lt
  simp only [difference]
  omega

theorem addOffsets_cons_eq_ok : addOffsets offset (value :: values) = .ok indexes ↔
      value.toNat + offset.toNat ≤ 65535 ∧
        ∃ rest, addOffsets (offsetBehind (some (value + offset))) values = .ok rest ∧
          indexes = (value + offset) :: rest := by
  rw [addOffsets, failIf_bind_eq_ok, bind_eq_ok, decide_eq_false_iff_not, Nat.not_lt]
  refine and_congr_right fun _ => exists_congr fun rest => and_congr_right fun _ => ?_
  rw [pure_eq_ok, eq_comm]

theorem addOffsets_length (h : addOffsets offset values = .ok indexes)
    : indexes.length = values.length := by
  induction values generalizing offset indexes with
  | nil =>
    cases h
    rfl
  | cons value values ih =>
    obtain ⟨-, rest, hrest, rfl⟩ := addOffsets_cons_eq_ok.mp h
    rw [length_cons, length_cons, ih hrest]

theorem addOffsets_differences (previous : Option UInt16)
    (hgrow : (previous.toList ++ indexes).Pairwise (· < ·)) :
    ∃ values, differences previous indexes = values.map UInt16.toNat ∧
      addOffsets (offsetBehind previous) values = .ok indexes := by
  induction indexes generalizing previous with
  | nil => exact ⟨[], rfl, rfl⟩
  | cons index indexes ih =>
    have hindex : index.toNat < 65536 := index.toNat_lt
    have hrest : ((some index).toList ++ indexes).Pairwise (· < ·) :=
      hgrow.sublist (sublist_append_right _ _)
    obtain ⟨values, hvalues, hadd⟩ := ih (some index) hrest
    -- the distance to the position before
    obtain ⟨hbelow, hle⟩ : Below previous ∧ (offsetBehind previous).toNat ≤ index.toNat := by
      cases previous with
      | none => exact ⟨trivial, Nat.zero_le _⟩
      | some previous =>
        have hlt : previous.toNat < index.toNat :=
          UInt16.lt_iff_toNat_lt.mp (rel_of_pairwise_cons hgrow (mem_cons_self ..))
        have hbelow : previous.toNat < 65535 := by omega
        exact ⟨hbelow, by rw [toNat_offsetBehind_some hbelow]; exact hlt⟩
    have hsub : (index - offsetBehind previous).toNat = index.toNat - (offsetBehind previous).toNat :=
      UInt16.toNat_sub_of_le _ _ (UInt16.le_iff_toNat_le.mpr hle)
    have hfit : (index - offsetBehind previous).toNat + (offsetBehind previous).toNat ≤ 65535 := by
      omega
    have hback : index - offsetBehind previous + offsetBehind previous = index := by
      apply UInt16.toNat_inj.mp
      rw [toNat_add_of_le hfit, hsub]
      omega
    refine ⟨(index - offsetBehind previous) :: values, ?_, ?_⟩
    · have hdiff := difference_add hbelow hfit
      rw [hback] at hdiff
      rw [differences, hdiff, hvalues, map_cons]
    · exact addOffsets_cons_eq_ok.mpr ⟨hfit, indexes, by rw [hback]; exact hadd, by rw [hback]⟩

/-- Only the last of the positions that distances add up to, the first of them behind
    `offset`, may be the greatest 16-bit number. -/
def MaxOnlyLast (offset : Nat) (values : List UInt16) : Prop :=
  ∀ j, j + 1 < values.length →
    offset + ((values.take (j + 1)).map UInt16.toNat).sum + j ≠ 65535

theorem maxOnlyLast_singleton (offset : Nat) (value : UInt16) : MaxOnlyLast offset [value] := by
  intro j hj
  rw [length_singleton] at hj
  omega

theorem maxOnlyLast_cons_cons {offset : Nat} {next : UInt16} :
    MaxOnlyLast offset (value :: next :: values) ↔
      offset + value.toNat ≠ 65535 ∧
        MaxOnlyLast (offset + value.toNat + 1) (next :: values) := by
  constructor
  · intro h
    refine ⟨by simpa using h 0 (by simp), fun j hj => ?_⟩
    have hnext := h (j + 1) (by simpa using hj)
    rw [take_succ_cons, map_cons, sum_cons] at hnext
    omega
  · rintro ⟨hfirst, hrest⟩ j hj
    cases j with
    | zero => simpa using hfirst
    | succ j =>
      have hnext := hrest j (by simpa using hj)
      rw [take_succ_cons, map_cons, sum_cons]
      omega

/-- By induction on the distances, the position before going along: both the growth
    of the positions and what is written for them break behind a greatest position,
    and nowhere else. -/
theorem addOffsets_growing_iff (previous : Option UInt16) (hprev : Below previous)
    (h : addOffsets (offsetBehind previous) values = .ok indexes) :
    (indexes.IsChain (· < ·) ↔ MaxOnlyLast (offsetBehind previous).toNat values) ∧
      (differences previous indexes = values.map UInt16.toNat ↔
        MaxOnlyLast (offsetBehind previous).toNat values) := by
  induction values generalizing previous indexes with
  | nil =>
    cases h
    have htrivial : MaxOnlyLast (offsetBehind previous).toNat [] := fun j hj => (nomatch hj)
    exact ⟨iff_of_true .nil htrivial, iff_of_true rfl htrivial⟩
  | cons value values ih =>
    obtain ⟨hfit, rest, hrest, rfl⟩ := addOffsets_cons_eq_ok.mp h
    have hdiff := difference_add hprev hfit
    have hsum := toNat_add_of_le hfit
    rw [differences, hdiff, map_cons, cons_inj_right]
    cases values with
    | nil =>
      cases hrest
      have hone := maxOnlyLast_singleton (offsetBehind previous).toNat value
      exact ⟨iff_of_true (.singleton _) hone, iff_of_true rfl hone⟩
    | cons next values =>
      obtain ⟨index, rest, rfl⟩ := exists_cons_of_length_eq_add_one (addOffsets_length hrest)
      rw [maxOnlyLast_cons_cons, isChain_cons_cons]
      by_cases hmax : (value + offsetBehind previous).toNat = 65535
      · -- the next position is no greater, and its distance is not what was read
        have hno : ¬(offsetBehind previous).toNat + value.toNat ≠ 65535 := by omega
        have hlt : ¬value + offsetBehind previous < index := by
          rw [UInt16.lt_iff_toNat_lt, hmax]
          have hindex : index.toNat < 65536 := index.toNat_lt
          omega
        refine ⟨iff_of_false (fun hc => hlt hc.1) (fun hc => hno hc.1),
          iff_of_false (fun heq => ?_) (fun hc => hno hc.1)⟩
        rw [differences, map_cons, List.cons.injEq] at heq
        exact difference_max hmax next heq.1
      · have hbelow : Below (some (value + offsetBehind previous)) := by
          show (value + offsetBehind previous).toNat < 65535
          omega
        obtain ⟨hchain, hwritten⟩ := ih _ hbelow hrest
        have hnext : (offsetBehind (some (value + offsetBehind previous))).toNat =
            (offsetBehind previous).toNat + value.toNat + 1 := by
          rw [toNat_offsetBehind_some hbelow]
          omega
        have hlt : value + offsetBehind previous < index := by
          obtain ⟨hfit', _, -, heq⟩ := addOffsets_cons_eq_ok.mp hrest
          obtain rfl : index = _ := (List.cons.inj heq).1
          rw [UInt16.lt_iff_toNat_lt, toNat_add_of_le hfit', hnext]
          omega
        rw [hnext] at hchain hwritten
        rw [hchain, hwritten]
        have hfirst : (offsetBehind previous).toNat + value.toNat ≠ 65535 := by omega
        exact ⟨by simp [hlt, hfirst], by simp [hfirst]⟩

/-! ## Both ways -/

theorem length_le_of_growing (hgrow : indexes.Pairwise (· < ·)) : indexes.length ≤ 65536 := by
  have hnodup : (indexes.map UInt16.toNat).Nodup :=
    (hgrow.imp fun h => (UInt16.lt_iff_toNat_lt.mp h).ne).map _ fun _ _ h => h
  have hsub : indexes.map UInt16.toNat ⊆ List.range 65536 := by
    intro x hx
    obtain ⟨index, -, rfl⟩ := mem_map.mp hx
    exact mem_range.mpr index.toNat_lt
  simpa using Nodup.length_le_of_subset hnodup hsub

theorem unserialize_serialize (hgrow : req.indexes.Pairwise (· < ·)) (rest : List UInt8) :
    unserialize (req.serialize ++ rest) = .ok (req, rest) := by
  obtain ⟨values, hvalues, hadd⟩ := addOffsets_differences none hgrow
  have hlen := addOffsets_length hadd
  refine unserialize_eq_ok.mpr ⟨values, ?_, ?_, hadd⟩
  · rw [serialize, hvalues, hlen, flatMap_map]
    rfl
  · rw [← hlen]
    exact (length_le_of_growing hgrow).trans (by decide)

/-- Requests with growing positions survive.  What is accepted has growing positions,
    and is written with the distances that were read, exactly where no position before
    the last is 65535: the 16-bit `offset` behind it is zero again. -/
theorem codec_iff_maxOnlyLast (req : BlockTransactionsRequest) (rest : List UInt8) :
    (req.indexes.Pairwise (· < ·) → unserialize (req.serialize ++ rest) = .ok (req, rest)) ∧
    ∀ bytes : List UInt8, unserialize bytes = .ok (req, rest) → ∃ values : List UInt16,
      bytes = leBytes 32 req.blockhash ++ writeCompactSize values.length ++ writeValues values ++
        rest ∧
      ((req.indexes.Pairwise (· < ·) ∧
        differences none req.indexes = values.map UInt16.toNat) ↔ MaxOnlyLast 0 values) := by
  refine ⟨fun hgrow => unserialize_serialize hgrow rest, fun bytes h => ?_⟩
  obtain ⟨values, hbytes, -, hadd⟩ := unserialize_eq_ok.mp h
  obtain ⟨hchain, hwritten⟩ := addOffsets_growing_iff none trivial hadd
  refine ⟨values, hbytes, ?_⟩
  rw [← isChain_iff_pairwise, hchain, hwritten]
  exact and_self_iff

/-- Three positions, the last of them the greatest. -/
def sampleRequest : BlockTransactionsRequest := ⟨7, [1, 5, 65535], by decide⟩

theorem codec_iff_maxOnlyLast_sample :
    unserialize (sampleRequest.serialize ++ [9]) = .ok (sampleRequest, [9]) ∧
    ∃ values : List UInt16,
      sampleRequest.serialize ++ [9] = leBytes 32 sampleRequest.blockhash ++
        writeCompactSize values.length ++ writeValues values ++ [9] ∧
      ((sampleRequest.indexes.Pairwise (· < ·) ∧
        differences none sampleRequest.indexes = values.map UInt16.toNat) ↔
          MaxOnlyLast 0 values) :=
  have hread := (codec_iff_maxOnlyLast sampleRequest [9]).1 (by decide)
  ⟨hread, (codec_iff_maxOnlyLast sampleRequest [9]).2 (sampleRequest.serialize ++ [9]) hread⟩

/-- The greatest position, and zero behind it: accepted, not growing, and written with
    another distance. -/
theorem codec_max_first : ∃ bytes req, unserialize bytes = .ok (req, []) ∧
    bytes = leBytes 32 req.blockhash ++ writeCompactSize 2 ++ writeValues [65535, 0] ∧
    ¬req.indexes.Pairwise (· < ·) ∧ differences none req.indexes ≠ [65535, 0] := by
  have hread : unserialize (leBytes 32 0 ++ writeCompactSize 2 ++ writeValues [65535, 0] ++ []) =
      .ok (⟨0, [65535, 0], by decide⟩, []) :=
    unserialize_eq_ok.mpr ⟨[65535, 0], rfl, by decide, rfl⟩
  exact ⟨_, _, hread, by rw [append_nil], by decide, by decide⟩

end BlockTransactionsRequest

end Rcoin
