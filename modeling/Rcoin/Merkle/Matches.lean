/-
  What is extracted from a partial merkle tree: from the tree of a block, the matched
  transactions and their positions; from any tree with the root of the block, only
  transactions of the block at their positions.

  Source: CPartialMerkleTree in src/merkleblock.{h,cpp}.
-/
import Rcoin.Merkle.PartialTree

namespace Rcoin

open List MerkleTree Nat Option

namespace CPartialMerkleTree

variable {H : Type} {Hash : H → H → H} {null : H} {vTxid : List H} {vMatch : List Bool}
  {height pos n : Nat}

/-! ## The tree -/

theorem calcTreeWidth_eq : calcTreeWidth n height = width n height := by
  rw [calcTreeWidth, shiftLeft_eq, one_mul, shiftRight_eq_div_pow]
  rfl

theorem calcHeight_spec {fuel h : Nat} (hfuel : n ≤ 2 ^ (h + fuel))
    (hbelow : ∀ l < h, 1 < width n l) :
    IsHeight n (calcHeight n fuel h) := by
  induction fuel generalizing h with
  | zero =>
    refine ⟨?_, hbelow⟩
    rw [← not_lt, lt_width_iff, one_mul]
    exact not_lt.mpr hfuel
  | succ fuel ih =>
    rw [calcHeight, calcTreeWidth_eq]
    by_cases hwide : 1 < width n h
    · rw [if_pos hwide]
      refine ih ?_ fun l hl => ?_
      · rwa [add_right_comm, add_assoc]
      · rcases Nat.lt_succ_iff_lt_or_eq.mp hl with hlt | rfl
        · exact hbelow l hlt
        · exact hwide
    · rw [if_neg hwide]
      exact ⟨not_lt.mp hwide, hbelow⟩

theorem calcHeight_isHeight : IsHeight n (calcHeight n n 0) := by
  refine calcHeight_spec ?_ fun l hl => absurd hl (not_lt_zero l)
  rw [zero_add]
  exact Nat.le_of_lt Nat.lt_two_pow_self

/-- The leaves of the tree, beyond the last of which nothing is read. -/
def leaf (null : H) (vTxid : List H) (i : Nat) : H := vTxid.getD i null

theorem getElem?_eq_leaf (hpos : pos < vTxid.length) :
    vTxid[pos]? = some (leaf null vTxid pos) := by
  rw [leaf, getD_eq_getElem?_getD, getElem?_eq_getElem hpos, getD_some]

theorem calcHash_eq (hpos : pos < width vTxid.length height) :
    calcHash Hash vTxid height pos =
      some (hash Hash (leaf null vTxid) vTxid.length height pos) := by
  induction height generalizing pos with
  | zero =>
    rw [width_zero] at hpos
    exact getElem?_eq_leaf hpos
  | succ height ih =>
    rw [calcHash, ih (left_lt_width hpos), calcTreeWidth_eq]
    simp only [bind_eq_bind, bind_some]
    by_cases htwo : pos * 2 + 1 < width vTxid.length height
    · rw [if_pos htwo, ih htwo, hash_of_two htwo, bind_some]
    · rw [if_neg htwo, hash_of_one htwo, bind_some]

theorem positions_eq : positions n height pos =
    range' (pos * 2 ^ height) (leaves n height pos) := by
  rw [positions, shiftLeft_eq, shiftLeft_eq]
  rfl

theorem positions_zero (hpos : pos < n) : positions n 0 pos = [pos] := by
  have hleaves : leaves n 0 pos = 1 := by
    rw [leaves, pow_zero]
    omega
  rw [positions_eq, hleaves, pow_zero, mul_one]
  rfl

theorem positions_of_two (htwo : pos * 2 + 1 < width n height) :
    positions n (height + 1) pos =
      positions n height (pos * 2) ++ positions n height (pos * 2 + 1) := by
  have hfull : leaves n height (pos * 2) = 2 ^ height := by
    have hpow := Nat.two_pow_pos height
    rw [lt_width_iff, succ_mul] at htwo
    rw [leaves, succ_mul]
    omega
  have hstart : pos * 2 ^ (height + 1) = pos * 2 * 2 ^ height := by ring
  have hnext : (pos * 2 + 1) * 2 ^ height = pos * 2 * 2 ^ height + 2 ^ height := succ_mul _ _
  rw [positions_eq, positions_eq, positions_eq, leaves_of_two, hfull, hstart, hnext,
    range'_append_1]

theorem positions_of_one (hone : ¬ pos * 2 + 1 < width n height) :
    positions n (height + 1) pos = positions n height (pos * 2) := by
  have hstart : pos * 2 ^ (height + 1) = pos * 2 * 2 ^ height := by ring
  rw [positions_eq, positions_eq, leaves_of_one hone, hstart]

theorem positions_top (hheight : IsHeight n height) (hn : 0 < n) :
    positions n height 0 = range n := by
  have hle : n ≤ 2 ^ height := by
    have := hheight.width_le
    rw [← not_lt, lt_width_iff, one_mul] at this
    exact not_lt.mp this
  have hleaves : leaves n height 0 = n := by
    rw [leaves, zero_mul, zero_add, one_mul]
    omega
  rw [positions_eq, hleaves, zero_mul, range_eq_range']

/-! ## One node of an extraction -/

section

variable [DecidableEq H] {t : CPartialMerkleTree H} {s : Extraction H} {b : Bool}

theorem extract_none (hbit : t.vBits[s.nBitsUsed]? = none) :
    t.traverseAndExtract Hash null height pos s = (null, { s with fBad := true }) := by
  cases height <;> rw [traverseAndExtract, hbit]

theorem extract_hash (hbit : t.vBits[s.nBitsUsed]? = some b) (hb : height = 0 ∨ b = false) :
    t.traverseAndExtract Hash null height pos s = traverseAndExtract.takeHash null t
      { s with nBitsUsed := s.nBitsUsed + 1 } height pos b := by
  cases height with
  | zero => rw [traverseAndExtract, hbit]
  | succ height =>
    obtain rfl : b = false := hb.resolve_left (succ_ne_zero height)
    rw [traverseAndExtract, hbit]

theorem extract_two {l r : H × Extraction H} (hbit : t.vBits[s.nBitsUsed]? = some true)
    (htwo : pos * 2 + 1 < width t.nTransactions height)
    (hl : t.traverseAndExtract Hash null height (pos * 2)
      { s with nBitsUsed := s.nBitsUsed + 1 } = l)
    (hr : t.traverseAndExtract Hash null height (pos * 2 + 1) l.2 = r) :
    t.traverseAndExtract Hash null (height + 1) pos s =
      (Hash l.1 r.1, if r.1 = l.1 then { r.2 with fBad := true } else r.2) := by
  rw [traverseAndExtract, hbit]
  simp only [hl, hr, calcTreeWidth_eq, if_pos htwo]

theorem extract_one {l : H × Extraction H} (hbit : t.vBits[s.nBitsUsed]? = some true)
    (hone : ¬ pos * 2 + 1 < width t.nTransactions height)
    (hl : t.traverseAndExtract Hash null height (pos * 2)
      { s with nBitsUsed := s.nBitsUsed + 1 } = l) :
    t.traverseAndExtract Hash null (height + 1) pos s = (Hash l.1 l.1, l.2) := by
  rw [traverseAndExtract, hbit]
  simp only [hl, calcTreeWidth_eq, if_neg hone]

end

/-! ## Building and extracting -/

variable {k : Nat}

section

variable [DecidableEq H]

/-- The matched positions below a node. -/
def matchedBelow (vMatch : List Bool) (n height pos : Nat) : List Nat :=
  (positions n height pos).filter fun p => vMatch[p]? == some true

theorem prefix_drop {α : Type} {a b l : List α} (h : a ++ b <+: l.drop k) :
    a <+: l.drop k ∧ b <+: l.drop (k + a.length) := by
  obtain ⟨post, hpost⟩ := h
  refine ⟨⟨b ++ post, by rw [← hpost, append_assoc]⟩, ⟨post, ?_⟩⟩
  rw [← drop_drop, ← hpost, append_assoc, drop_left]

theorem getElem?_of_prefix {α : Type} {a : α} {b l : List α} (h : a :: b <+: l.drop k) :
    l[k]? = some a := by
  obtain ⟨post, hpost⟩ := h
  have hget : (l.drop k)[0]? = some a := by rw [← hpost]; rfl
  rwa [getElem?_drop, add_zero] at hget

/-- The state of the extraction after some bits, hashes and matches more. -/
def Extraction.advance (s : Extraction H) (null : H) (vTxid : List H) (bits hashes : Nat)
    (matched : List Nat) : Extraction H :=
  { nBitsUsed := s.nBitsUsed + bits
    nHashUsed := s.nHashUsed + hashes
    vMatch := s.vMatch ++ matched.map (leaf null vTxid)
    vnIndex := s.vnIndex ++ matched
    fBad := s.fBad }

/-- Extraction from where the bits and hashes of a node are gives its hash and the matched
    transactions below it. -/
def ExtractsNode (Hash : H → H → H) (null : H) (vTxid : List H) (vMatch : List Bool)
    (height pos : Nat) (bits : List Bool) (hashes : List H) : Prop :=
  ∀ (t : CPartialMerkleTree H) (s : Extraction H), t.nTransactions = vTxid.length →
    bits <+: t.vBits.drop s.nBitsUsed → hashes <+: t.vHash.drop s.nHashUsed →
    t.traverseAndExtract Hash null height pos s =
      (hash Hash (leaf null vTxid) vTxid.length height pos,
        s.advance null vTxid bits.length hashes.length
          (matchedBelow vMatch vTxid.length height pos))

theorem extractsNode_hash {b : Bool} (hb : height = 0 ∨ b = false)
    (hmatched : matchedBelow vMatch vTxid.length height pos =
      if height = 0 ∧ b = true then [pos] else []) :
    ExtractsNode Hash null vTxid vMatch height pos [b]
      [hash Hash (leaf null vTxid) vTxid.length height pos] := by
  intro t s _ hbits hhashes
  have hbit := getElem?_of_prefix hbits
  have hhash := getElem?_of_prefix hhashes
  have htake : traverseAndExtract.takeHash null t { s with nBitsUsed := s.nBitsUsed + 1 } height pos
      b = (hash Hash (leaf null vTxid) vTxid.length height pos,
        s.advance null vTxid 1 1 (matchedBelow vMatch vTxid.length height pos)) := by
    simp only [traverseAndExtract.takeHash, hhash, hmatched, Extraction.advance]
    split
    next hcond =>
      obtain ⟨rfl, -⟩ := hcond
      rfl
    next =>
      rw [map_nil, append_nil, append_nil]
  rw [extract_hash hbit hb]
  exact htake

theorem extractsNode_two (hnode : ∀ a b c d, Hash a b = Hash c d → a = c ∧ b = d)
    (hnodup : vTxid.Nodup) (htwo : pos * 2 + 1 < width vTxid.length height)
    {bitsL bitsR : List Bool} {hashesL hashesR : List H}
    (hl : ExtractsNode Hash null vTxid vMatch height (pos * 2) bitsL hashesL)
    (hr : ExtractsNode Hash null vTxid vMatch height (pos * 2 + 1) bitsR hashesR) :
    ExtractsNode Hash null vTxid vMatch (height + 1) pos (true :: (bitsL ++ bitsR))
      (hashesL ++ hashesR) := by
  intro t s hn hbits hhashes
  have hbit := getElem?_of_prefix hbits
  have hrest := (prefix_drop (a := [true]) (b := bitsL ++ bitsR) hbits).2
  obtain ⟨hbitsL, hbitsR⟩ := prefix_drop hrest
  obtain ⟨hhashesL, hhashesR⟩ := prefix_drop hhashes
  let s1 : Extraction H := { s with nBitsUsed := s.nBitsUsed + 1 }
  let s2 := s1.advance null vTxid bitsL.length hashesL.length
    (matchedBelow vMatch vTxid.length height (pos * 2))
  have hleft := hl t s1 hn hbitsL hhashesL
  have hright := hr t s2 hn hbitsR hhashesR
  -- two nodes of one level have different hashes
  have hne : ¬ hash Hash (leaf null vTxid) vTxid.length height (pos * 2 + 1) =
      hash Hash (leaf null vTxid) vTxid.length height (pos * 2) := by
    intro heq
    have hleaf : ∀ i < vTxid.length, ∀ j < vTxid.length,
        leaf null vTxid i = leaf null vTxid j → i = j := by
      intro i hi j hj hij
      have hi' : vTxid[i]? = some (leaf null vTxid i) := getElem?_eq_leaf hi
      have hj' : vTxid[j]? = some (leaf null vTxid j) := getElem?_eq_leaf hj
      rw [hij, ← hj'] at hi'
      exact (getElem?_inj hi hnodup).mp hi'
    have := hash_injective hnode hleaf htwo (lt_of_succ_lt htwo) heq
    omega
  rw [← hn] at htwo
  rw [extract_two hbit htwo hleft hright, if_neg hne]
  rw [hn] at htwo
  refine Prod.ext (hash_of_two htwo).symm ?_
  simp only [s2, s1, Extraction.advance, matchedBelow, positions_of_two htwo, filter_append,
    map_append, length_cons, length_append, append_assoc]
  congr 1 <;> omega

theorem extractsNode_one (hone : ¬ pos * 2 + 1 < width vTxid.length height)
    {bits : List Bool} {hashes : List H}
    (hl : ExtractsNode Hash null vTxid vMatch height (pos * 2) bits hashes) :
    ExtractsNode Hash null vTxid vMatch (height + 1) pos (true :: bits) hashes := by
  intro t s hn hbits hhashes
  have hbit := getElem?_of_prefix hbits
  have hrest := (prefix_drop (a := [true]) (b := bits) hbits).2
  have hleft := hl t { s with nBitsUsed := s.nBitsUsed + 1 } hn hrest hhashes
  rw [extract_one hbit (by rwa [hn]) hleft]
  refine Prod.ext (hash_of_one hone).symm ?_
  simp only [Extraction.advance, matchedBelow, positions_of_one hone, length_cons]
  congr 1
  omega

theorem traverseAndBuild_spec (null : H) (vMatch : List Bool)
    (hnode : ∀ a b c d, Hash a b = Hash c d → a = c ∧ b = d)
    (hnodup : vTxid.Nodup) (hpos : pos < width vTxid.length height)
    (out : List Bool × List H) :
    ∃ bits hashes, traverseAndBuild Hash vTxid vMatch height pos out =
        some (out.1 ++ bits, out.2 ++ hashes) ∧ hashes.length ≤ bits.length ∧
      hashes.length ≤ leaves vTxid.length height pos ∧
      ExtractsNode Hash null vTxid vMatch height pos bits hashes := by
  have hsome := leaves_pos hpos
  have hhash : calcHash Hash vTxid height pos = some (hash Hash (leaf null vTxid)
      vTxid.length height pos) := calcHash_eq hpos
  induction height generalizing pos out with
  | zero =>
    rw [width_zero] at hpos
    refine ⟨_, [hash Hash (leaf null vTxid) vTxid.length 0 pos],
      by rw [traverseAndBuild, hhash]; rfl, le_refl _, hsome,
      extractsNode_hash (.inl rfl) ?_⟩
    rw [matchedBelow, positions_zero hpos, filter_cons, filter_nil, any_cons,
      any_nil, Bool.or_false]
    simp only [true_and]
  | succ height ih =>
    rw [traverseAndBuild]
    cases hany : (positions vTxid.length (height + 1) pos).any fun p => vMatch[p]? == some true with
    | false =>
      refine ⟨[false], [hash Hash (leaf null vTxid) vTxid.length (height + 1) pos],
        by simp only [hhash]; rfl, le_refl _, hsome, extractsNode_hash (.inr rfl) ?_⟩
      -- nothing below is matched: one bit and the hash of the node stand for it all
      have hnil : matchedBelow vMatch vTxid.length (height + 1) pos = [] := by
        rw [matchedBelow, filter_eq_nil_iff]
        intro p hp
        rw [List.any_eq_false] at hany
        exact hany p hp
      rw [hnil, if_neg (fun h => succ_ne_zero height h.1)]
    | true =>
      have hposL := left_lt_width hpos
      obtain ⟨bitsL, hashesL, hbuildL, hleL, hleavesL, hextractL⟩ := ih hposL
        (out.1 ++ [true], out.2) (leaves_pos hposL) (calcHash_eq hposL)
      simp only [Bool.not_true, Bool.false_eq_true, if_false, hbuildL, bind_eq_bind,
        bind_some, calcTreeWidth_eq]
      -- a set bit, then the left child and the right one if the level has it
      by_cases htwo : pos * 2 + 1 < width vTxid.length height
      · obtain ⟨bitsR, hashesR, hbuildR, hleR, hleavesR, hextractR⟩ := ih htwo
          (out.1 ++ [true] ++ bitsL, out.2 ++ hashesL) (leaves_pos htwo)
          (calcHash_eq htwo)
        rw [if_pos htwo, hbuildR]
        refine ⟨true :: (bitsL ++ bitsR), hashesL ++ hashesR, by simp, ?_, ?_,
          extractsNode_two hnode hnodup htwo hextractL hextractR⟩
        · rw [length_cons, length_append, length_append]
          omega
        · rw [leaves_of_two, length_append]
          omega
      · rw [if_neg htwo]
        refine ⟨true :: bitsL, hashesL, by simp, ?_, ?_, extractsNode_one htwo hextractL⟩
        · rw [length_cons]
          omega
        · rw [leaves_of_one htwo]
          exact hleavesL

end

/-! ## Trees from anyone -/

/-- The matches of `s'` are those of `s` and some transactions of the block at their
    positions. -/
def Reports (vTxid : List H) (s s' : Extraction H) : Prop :=
  ∃ matched : List (Nat × H), s'.vMatch = s.vMatch ++ matched.map Prod.snd ∧
    s'.vnIndex = s.vnIndex ++ matched.map Prod.fst ∧
      ∀ pos txid, (pos, txid) ∈ matched → vTxid[pos]? = some txid

theorem Reports.trans {s s' s'' : Extraction H} (h : Reports vTxid s s')
    (h' : Reports vTxid s' s'') : Reports vTxid s s'' := by
  obtain ⟨l, hmatch, hindex, hall⟩ := h
  obtain ⟨l', hmatch', hindex', hall'⟩ := h'
  refine ⟨l ++ l', ?_, ?_, fun pos txid hmem => ?_⟩
  · rw [hmatch', hmatch, map_append, append_assoc]
  · rw [hindex', hindex, map_append, append_assoc]
  · rcases mem_append.mp hmem with hmem | hmem
    · exact hall pos txid hmem
    · exact hall' pos txid hmem

theorem Reports.of_eq {s s' : Extraction H} (hmatch : s'.vMatch = s.vMatch)
    (hindex : s'.vnIndex = s.vnIndex) : Reports vTxid s s' := by
  refine ⟨[], ?_, ?_, fun _ _ hmem => by cases hmem⟩
  · rw [hmatch, map_nil, append_nil]
  · rw [hindex, map_nil, append_nil]

variable {t : CPartialMerkleTree H}

theorem takeHash_fBad {s : Extraction H} {b : Bool}
    (h : (traverseAndExtract.takeHash null t s height pos b).2.fBad = false) : s.fBad = false := by
  rw [traverseAndExtract.takeHash] at h
  split at h
  · cases h
  · split at h <;> exact h

section

variable [DecidableEq H] {s : Extraction H}

theorem traverseAndExtract_fBad
    (h : (t.traverseAndExtract Hash null height pos s).2.fBad = false) : s.fBad = false := by
  induction height generalizing pos s with
  | zero =>
    cases hbit : t.vBits[s.nBitsUsed]? with
    | none =>
      rw [extract_none hbit] at h
      cases h
    | some b =>
      rw [extract_hash hbit (Or.inl rfl)] at h
      have hstart := takeHash_fBad h
      exact hstart
  | succ height ih =>
    cases hbit : t.vBits[s.nBitsUsed]? with
    | none =>
      rw [extract_none hbit] at h
      cases h
    | some b =>
      cases b with
      | false =>
        rw [extract_hash hbit (Or.inr rfl)] at h
        have hstart := takeHash_fBad h
        exact hstart
      | true =>
        have hstart : ∀ p, (t.traverseAndExtract Hash null height p
            { s with nBitsUsed := s.nBitsUsed + 1 }).2.fBad = false → s.fBad = false := by
          intro p hp
          have hstart := ih hp
          exact hstart
        by_cases htwo : pos * 2 + 1 < width t.nTransactions height
        · rw [extract_two hbit htwo rfl rfl] at h
          split at h
          · cases h
          · exact hstart _ (ih h)
        · rw [extract_one hbit htwo rfl] at h
          exact hstart _ h

theorem traverseAndExtract_reports (hnode : ∀ a b c d, Hash a b = Hash c d → a = c ∧ b = d)
    (hpos : pos < width vTxid.length height) (hn : t.nTransactions = vTxid.length)
    (hbad : (t.traverseAndExtract Hash null height pos s).2.fBad = false)
    (hroot : (t.traverseAndExtract Hash null height pos s).1 =
      hash Hash (leaf null vTxid) vTxid.length height pos) :
    Reports vTxid s (t.traverseAndExtract Hash null height pos s).2 := by
  induction height generalizing pos s with
  | zero =>
    rw [width_zero] at hpos
    cases hbit : t.vBits[s.nBitsUsed]? with
    | none =>
      rw [extract_none hbit]
      exact Reports.of_eq rfl rfl
    | some b =>
      rw [extract_hash hbit (Or.inl rfl)] at hroot ⊢
      rw [traverseAndExtract.takeHash] at hroot ⊢
      cases hhash : t.vHash[s.nHashUsed]? with
      | none => exact Reports.of_eq rfl rfl
      | some hash =>
        simp only [hhash] at hroot ⊢
        cases b with
        | false => exact Reports.of_eq rfl rfl
        | true =>
          -- a matched leaf is the transaction at its position
          refine ⟨[(pos, hash)], rfl, rfl, fun p txid hmem => ?_⟩
          obtain ⟨rfl, rfl⟩ := Prod.mk.inj (mem_singleton.mp hmem)
          rw [getElem?_eq_leaf hpos]
          exact congrArg some hroot.symm
  | succ height ih =>
    cases hbit : t.vBits[s.nBitsUsed]? with
    | none =>
      rw [extract_none hbit]
      exact Reports.of_eq rfl rfl
    | some b =>
      cases b with
      | false =>
        rw [extract_hash hbit (Or.inr rfl)]
        rw [traverseAndExtract.takeHash]
        cases hhash : t.vHash[s.nHashUsed]? with
        | none => exact Reports.of_eq rfl rfl
        | some hash => exact Reports.of_eq rfl rfl
      | true =>
        have hposL := left_lt_width hpos
        have hstart : Reports vTxid s { s with nBitsUsed := s.nBitsUsed + 1 } :=
          Reports.of_eq rfl rfl
        refine hstart.trans ?_
        by_cases htwo : pos * 2 + 1 < width vTxid.length height
        · rw [extract_two hbit (by rwa [hn]) rfl rfl] at hbad hroot ⊢
          split at hbad
          · cases hbad
          next hne =>
            rw [if_neg hne]
            rw [hash_of_two htwo] at hroot
            obtain ⟨hrootL, hrootR⟩ := hnode _ _ _ _ hroot
            exact (ih hposL (traverseAndExtract_fBad hbad) hrootL).trans (ih htwo hbad hrootR)
        · rw [extract_one hbit (by rwa [hn]) rfl] at hbad hroot ⊢
          exact ih hposL hbad (hnode _ _ _ _ hroot).1

end

/-! ## Bits in bytes -/

theorem packBits_spec (v : List Bool) (hk : k ≤ v.length) : ∀ bytes, bytes = (range k).foldl
        (fun vBytes p => vBytes.modify (p / 8) (· ||| ((v.getD p false).toNat <<< (p % 8))))
        (replicate ((v.length + 7) / 8) 0) →
      bytes.length = (v.length + 7) / 8 ∧ ∀ j i, i < 8 → (bytes.getD j 0).testBit i =
        (decide (j * 8 + i < k) && v.getD (j * 8 + i) false) := by
  induction k with
  | zero =>
    rintro bytes rfl
    refine ⟨by simp, fun j i _ => ?_⟩
    simp
  | succ k ih =>
    rintro bytes rfl
    rw [range_succ, foldl_append, foldl_cons, foldl_nil]
    obtain ⟨hlen, hbits⟩ := ih (le_of_succ_le hk) _ rfl
    generalize foldl _ _ (range k) = bytes at hlen hbits ⊢
    refine ⟨by rw [length_modify, hlen], fun j i hi => ?_⟩
    have hj := hbits j i hi
    rw [getD_eq_getElem?_getD]
    by_cases hjk : k / 8 = j
    · have hin : j < bytes.length := by omega
      have hget : bytes[j]? = some (bytes.getD j 0) := by
        rw [getD_eq_getElem?_getD, getElem?_eq_getElem hin, getD_some]
      rw [hjk, getElem?_modify_eq, hget, Option.map_eq_map, map_some, getD_some,
        testBit_or, hj, testBit_shiftLeft]
      by_cases hik : i = k % 8
      · -- the bit that is written
        have hidx : j * 8 + i = k := by omega
        rw [hidx, hik]
        cases v.getD k false <;> simp
      · have hone : ((v.getD k false).toNat).testBit (i - k % 8) = false ∨ ¬ k % 8 ≤ i := by
          by_cases hle : k % 8 ≤ i
          · left
            obtain ⟨d, hd⟩ : ∃ d, i - k % 8 = d + 1 := ⟨i - k % 8 - 1, by omega⟩
            rw [hd]
            cases v.getD k false <;> simp [testBit_succ]
          · exact .inr hle
        have hlt : (j * 8 + i < k + 1) ↔ j * 8 + i < k := by omega
        simp only [hlt]
        rcases hone with hone | hone
        · rw [hone, Bool.and_false, Bool.or_false]
        · simp [hone]
    · have hlt : (j * 8 + i < k + 1) ↔ j * 8 + i < k := by omega
      rw [getElem?_modify_ne _ _ hjk, ← getD_eq_getElem?_getD, hj]
      simp only [hlt]

theorem unpackBits_packBits (v : List Bool) :
    v <+: unpackBits (packBits v) ∧ (unpackBits (packBits v)).length = (v.length + 7) / 8 * 8 := by
  obtain ⟨hlen, hbits⟩ := packBits_spec v (le_refl _) (packBits v) rfl
  have hlen' : (unpackBits (packBits v)).length = (v.length + 7) / 8 * 8 := by
    rw [unpackBits, length_map, length_range, hlen]
  refine ⟨?_, hlen'⟩
  rw [prefix_iff_getElem?]
  intro i hi
  have hlt : i < (packBits v).length * 8 := by omega
  have hmod : i / 8 * 8 + i % 8 = i := by omega
  have hbit := hbits (i / 8) (i % 8) (mod_lt _ (by omega))
  rw [unpackBits, getElem?_map, getElem?_range hlt, map_some, one_shiftLeft,
    and_two_pow, hbit, hmod, getD_eq_getElem?_getD, getElem?_eq_getElem hi]
  cases v[i] <;> simp [hi]

/-! ## The whole way -/

/-- The positions of the matched transactions. -/
def matchedPositions (vMatch : List Bool) : List Nat :=
  (range vMatch.length).filter fun p => vMatch[p]? == some true

theorem map_leaf_eq_filterMap {l : List Nat} (hl : ∀ p ∈ l, p < vTxid.length) :
    l.map (leaf null vTxid) = l.filterMap (vTxid[·]?) := by
  induction l with
  | nil => rfl
  | cons p l ih =>
    have hp : vTxid[p]? = some (leaf null vTxid p) := getElem?_eq_leaf (hl p mem_cons_self)
    rw [map_cons, filterMap_cons, hp, ih fun q hq => hl q (mem_cons_of_mem _ hq)]

section

variable [DecidableEq H]

theorem extractMatches_of_block (hnode : ∀ a b c d, Hash a b = Hash c d → a = c ∧ b = d)
    (hnodup : vTxid.Nodup) (hne : vTxid ≠ [])
    (hlen : vTxid.length ≤ MAX_BLOCK_WEIGHT / MIN_TRANSACTION_WEIGHT)
    (hmask : vMatch.length = vTxid.length) :
    ∃ t, ofTxids Hash vTxid vMatch = some t ∧
      (deserialize t.serialize).extractMatches Hash null [] =
        (hash Hash (leaf null vTxid) vTxid.length
            (calcHeight vTxid.length vTxid.length 0) 0,
          (matchedPositions vMatch).filterMap (vTxid[·]?), matchedPositions vMatch) := by
  have hpos := length_pos_iff.mpr hne
  have hheight := calcHeight_isHeight (n := vTxid.length)
  have htop : 0 < width vTxid.length (calcHeight vTxid.length vTxid.length 0) := by
    rw [lt_width_iff, zero_mul]
    exact hpos
  obtain ⟨bits, hashes, hbuild, hle, hleaves, hextract⟩ :=
    traverseAndBuild_spec null vMatch hnode hnodup htop ([], [])
  obtain ⟨hbits, hbitsLen⟩ := unpackBits_packBits bits
  have hmatched : matchedBelow vMatch vTxid.length (calcHeight vTxid.length vTxid.length 0) 0 =
      matchedPositions vMatch := by
    rw [matchedBelow, positions_top hheight hpos, matchedPositions, hmask]
  have hleavesTop : leaves vTxid.length (calcHeight vTxid.length vTxid.length 0) 0 ≤
      vTxid.length := by
    rw [leaves, zero_mul, Nat.sub_zero]
    exact Nat.min_le_right _ _
  let t : CPartialMerkleTree H :=
    { nTransactions := vTxid.length, vBits := unpackBits (packBits bits), vHash := hashes,
      fBad := false }
  refine ⟨_, by rw [ofTxids, hbuild]; rfl, ?_⟩
  show t.extractMatches Hash null [] = _
  have hres : t.traverseAndExtract Hash null (calcHeight t.nTransactions t.nTransactions 0) 0
      { vnIndex := [], fBad := t.fBad } = _ := hextract t _ rfl hbits (prefix_refl _)
  have hsome : ¬ t.nTransactions = 0 := Nat.pos_iff_ne_zero.mp hpos
  have hmany : ¬ t.nTransactions > MAX_BLOCK_WEIGHT / MIN_TRANSACTION_WEIGHT := Nat.not_lt.mpr hlen
  have hhashes : ¬ t.vHash.length > t.nTransactions := Nat.not_lt.mpr (hleaves.trans hleavesTop)
  have hbitsOk : ¬ t.vBits.length < t.vHash.length := Nat.not_lt.mpr (hle.trans hbits.length_le)
  have hpadding : ¬ (bits.length + 7) / 8 ≠ ((bits.length + 7) / 8 * 8 + 7) / 8 := by omega
  rw [extractMatches, if_neg hsome, if_neg hmany, if_neg hhashes, if_neg hbitsOk]
  simp only [hres, Extraction.advance, hmatched, t, hbitsLen, Nat.zero_add, nil_append,
    if_neg hpadding, Bool.false_eq_true, if_false, ne_eq, not_true]
  rw [map_leaf_eq_filterMap]
  intro p hp
  have hmem := mem_of_mem_filter hp
  rwa [← hmask, ← mem_range]

theorem extractMatches_sound (hnode : ∀ a b c d, Hash a b = Hash c d → a = c ∧ b = d)
    (hne : vTxid ≠ []) {root : H} (hroot : root = hash Hash (leaf null vTxid)
      vTxid.length (calcHeight vTxid.length vTxid.length 0) 0) (hnull : root ≠ null)
    (hn : t.nTransactions = vTxid.length) {txids : List H} {indices : List Nat}
    (h : t.extractMatches Hash null [] = (root, txids, indices)) :
    txids.length = indices.length ∧
      ∀ pos txid, (pos, txid) ∈ indices.zip txids → vTxid[pos]? = some txid := by
  have hfail : ∀ {l : List H × List Nat}, (null, l) ≠ (root, txids, indices) :=
    fun heq => hnull (congrArg Prod.fst heq).symm
  rw [extractMatches] at h
  split at h
  · exact absurd h hfail
  split at h
  · exact absurd h hfail
  split at h
  · exact absurd h hfail
  split at h
  · exact absurd h hfail
  simp only [hn] at h
  split at h
  · exact absurd h hfail
  next hbad =>
    split at h
    · exact absurd h hfail
    split at h
    · exact absurd h hfail
    obtain ⟨hres, hrest⟩ := Prod.mk.inj h
    obtain ⟨htxids, hindices⟩ := Prod.mk.inj hrest
    have htop : 0 < width vTxid.length (calcHeight vTxid.length vTxid.length 0) := by
      rw [lt_width_iff, zero_mul]
      exact length_pos_iff.mpr hne
    obtain ⟨matched, hmatch, hindex, hall⟩ := traverseAndExtract_reports hnode htop hn
      (Bool.eq_false_iff.mpr hbad) (hres.trans hroot)
    rw [htxids, nil_append] at hmatch
    rw [hindices, nil_append] at hindex
    subst hmatch hindex
    refine ⟨by rw [length_map, length_map], fun pos txid hmem => hall pos txid ?_⟩
    rw [zip_map'] at hmem
    obtain ⟨p, hp, heq⟩ := mem_map.mp hmem
    rwa [← heq]

/-- A partial merkle tree gives the root of the block and the matched transactions with
    their positions; and whatever tree gives the root, unless that is the null hash, reports
    only transactions of the block at their positions. -/
theorem extractMatches_correct (hnode : ∀ a b c d, Hash a b = Hash c d → a = c ∧ b = d)
    (null : H) (vTxid : List H) (hnodup : vTxid.Nodup) (hne : vTxid ≠ [])
    (hlen : vTxid.length ≤ MAX_BLOCK_WEIGHT / MIN_TRANSACTION_WEIGHT) :
    ∃ root, Merkle.computeMerkleRoot Hash null vTxid = some root ∧
      (∀ vMatch, vMatch.length = vTxid.length → ∃ t, ofTxids Hash vTxid vMatch = some t ∧
        (deserialize t.serialize).extractMatches Hash null [] =
          (root, (matchedPositions vMatch).filterMap (vTxid[·]?), matchedPositions vMatch)) ∧
      (root ≠ null → ∀ (t : CPartialMerkleTree H) (txids : List H) (indices : List Nat),
        t.nTransactions = vTxid.length → t.extractMatches Hash null [] = (root, txids, indices) →
        txids.length = indices.length ∧
          ∀ pos txid, (pos, txid) ∈ indices.zip txids → vTxid[pos]? = some txid) := by
  have hmax : MAX_BLOCK_WEIGHT / MIN_TRANSACTION_WEIGHT ≤ 2 ^ 31 := by decide
  obtain ⟨height, hheight, hroot⟩ :=
    Merkle.computeMerkleRoot_spec Hash null hne (hlen.trans hmax)
  rw [hheight.unique calcHeight_isHeight] at hroot
  refine ⟨_, hroot, fun vMatch hmask => ?_, fun hnull t txids indices hn h => ?_⟩
  · exact extractMatches_of_block hnode hnodup hne hlen hmask
  · exact extractMatches_sound hnode hne rfl hnull hn h

end

/-! ## Samples -/

/-- An injective pair hash that is never 0. -/
def samplePair (a b : Nat) : Nat := pair a b + 1

theorem samplePair_injective (a b c d : Nat) (h : samplePair a b = samplePair c d) :
    a = c ∧ b = d := pair_eq_pair.mp (succ.inj h)

/-- A tree of one transaction with a byte of bits too many. -/
def samplePadded : CPartialMerkleTree Nat :=
  { nTransactions := 1, vBits := true :: replicate 8 false, vHash := [5], fBad := false }

/-- For the block of one transaction whose hash is null the root does not tell that the
    extraction failed, which reports another transaction. -/
theorem extractMatches_null :
    (∀ a b, samplePair a b ∉ [0]) ∧ Merkle.computeMerkleRoot samplePair 0 [0] = some 0 ∧
      samplePadded.extractMatches samplePair 0 [] = (0, [5], [0]) := by
  refine ⟨fun a b => ?_, by decide, by decide⟩
  rw [mem_singleton]
  exact succ_ne_zero _

theorem extractMatches_correct_sample :
    ∃ t, ofTxids samplePair [7, 8, 9] [false, true, true] = some t ∧
      (deserialize t.serialize).extractMatches samplePair 0 [] =
        (samplePair (samplePair 7 8) (samplePair 9 9), [8, 9], [1, 2]) := by
  obtain ⟨root, hroot, hbuild, -⟩ := extractMatches_correct samplePair_injective 0 [7, 8, 9]
    (by decide) (by decide) (by decide)
  obtain ⟨t, ht, hextract⟩ := hbuild [false, true, true] rfl
  refine ⟨t, ht, hextract.trans ?_⟩
  have hvalue : Merkle.computeMerkleRoot samplePair 0 [7, 8, 9] =
      some (samplePair (samplePair 7 8) (samplePair 9 9)) := rfl
  rw [Option.some.inj (hroot.symm.trans hvalue)]
  rfl

end CPartialMerkleTree

end Rcoin
