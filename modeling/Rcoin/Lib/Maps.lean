/-
  Finite maps seen as functions to `Option`, and sequences of absolute writes
  on them.  A write sets or deletes one key, whatever was there before, so the
  value a sequence leaves at a key is the one of its last write to the key: a
  sequence can be replayed over any partially updated map.
-/
import Mathlib

namespace Maps

open AList List

variable {K V : Type*} [DecidableEq K]

/-! ## Lookups in association lists -/

theorem lookup_insert (s : AList fun _ : K => V) (a a' : K) (b : V) :
    (s.insert a b).lookup a' = if a' = a then some b else s.lookup a' := by
  by_cases h : a' = a
  · subst h; rw [AList.lookup_insert, if_pos rfl]
  · rw [lookup_insert_ne h, if_neg h]

theorem lookup_erase (s : AList fun _ : K => V) (a a' : K) :
    (s.erase a).lookup a' = if a' = a then none else s.lookup a' := by
  by_cases h : a' = a
  · subst h; rw [AList.lookup_erase, if_pos rfl]
  · rw [lookup_erase_ne h, if_neg h]

theorem lookup_foldl_erase (s : AList fun _ : K => V) (l : List K) (a : K) :
    (l.foldl (fun m k => m.erase k) s).lookup a = if a ∈ l then none else s.lookup a := by
  induction l generalizing s with
  | nil => simp
  | cons b l ih =>
    rw [List.foldl_cons, ih, lookup_erase]
    by_cases hb : a = b
    · simp [hb]
    · simp [hb]

/-- A map that is filled with the values of a function, at the keys where it has one. -/
theorem lookup_foldl_elim_insert (f : K → Option V) (s : AList fun _ : K => V) (l : List K) (a : K) :
    (l.foldl (fun m k => (f k).elim m (m.insert k)) s).lookup a =
      if a ∈ l ∧ (f a).isSome then f a else s.lookup a := by
  induction l generalizing s with
  | nil => simp
  | cons b l ih =>
    rw [List.foldl_cons, ih]
    by_cases ha : a ∈ l ∧ (f a).isSome
    · rw [if_pos ha, if_pos ⟨List.mem_cons_of_mem b ha.1, ha.2⟩]
    · rw [if_neg ha]
      by_cases hab : a = b
      · subst hab
        cases hf : f a <;> simp
      · have hcons : ¬ (a ∈ b :: l ∧ (f a).isSome) := by simpa [hab] using ha
        rw [if_neg hcons]
        cases f b with
        | none => rfl
        | some v => exact lookup_insert_ne hab

/-- `insert` as containers with unique keys do it: a key that is there keeps its
    value. -/
def insertNew (s : AList fun _ : K => V) (a : K) (b : V) : AList fun _ : K => V :=
  if a ∈ s then s else s.insert a b

theorem lookup_insertNew (s : AList fun _ : K => V) (a a' : K) (b : V) :
    (insertNew s a b).lookup a' = if a' = a then some ((s.lookup a).getD b) else s.lookup a' := by
  unfold insertNew
  by_cases ha : a ∈ s
  · obtain ⟨c, hc⟩ := Option.isSome_iff_exists.mp (lookup_isSome.mpr ha)
    rw [if_pos ha]
    split
    next h => rw [h, hc, Option.getD_some]
    next => rfl
  · rw [if_neg ha, lookup_insert, lookup_eq_none.mpr ha, Option.getD_none]

variable {s : AList fun _ : K => V} {a : K} {b : V}

theorem lookup_eq_some_iff_mem :
    s.lookup a = some b ↔ (⟨a, b⟩ : Sigma fun _ : K => V) ∈ s.entries := by
  rw [← Option.mem_def]; exact mem_lookup_iff

/-! ## Writes -/

/-- One absolute write: the key and its new value, `none` to delete it. -/
abbrev Write (K V : Type*) := K × Option V

/-- The map after one write. -/
def write (m : K → Option V) (w : Write K V) : K → Option V := Function.update m w.1 w.2

/-- The map after a sequence of writes, in order. -/
def writes (m : K → Option V) (ws : List (Write K V)) : K → Option V := ws.foldl write m

variable (m : K → Option V)

@[simp] theorem writes_nil : writes m [] = m := rfl

@[simp] theorem writes_cons (w : Write K V) (ws : List (Write K V)) :
    writes m (w :: ws) = writes (write m w) ws := rfl

theorem writes_append (ws ws' : List (Write K V)) :
    writes m (ws ++ ws') = writes (writes m ws) ws' := foldl_append

theorem write_apply (w : Write K V) (k : K) : write m w k = if k = w.1 then w.2 else m k := by
  unfold write; rw [Function.update_apply]

theorem writes_of_forall_ne (ws : List (Write K V)) (k : K) (h : ∀ w ∈ ws, w.1 ≠ k)
    : writes m ws k = m k := by
  induction ws generalizing m with
  | nil => rfl
  | cons w ws ih =>
    rw [writes_cons, ih _ fun w' hw' => h w' (mem_cons_of_mem _ hw'), write_apply,
      if_neg fun hk => h w (mem_cons_self ..) hk.symm]

/-- At a key some write names, the result does not depend on the start map. -/
theorem writes_congr_of_mem (m' : K → Option V) (ws : List (Write K V)) (k : K)
    (h : ∃ w ∈ ws, w.1 = k) : writes m ws k = writes m' ws k := by
  induction ws generalizing m m' with
  | nil => obtain ⟨w, hw, -⟩ := h; cases hw
  | cons w ws ih =>
    by_cases hws : ∃ w ∈ ws, w.1 = k
    · exact ih _ _ hws
    · have hne : ∀ w' ∈ ws, w'.1 ≠ k := fun w' hw' he => hws ⟨w', hw', he⟩
      obtain ⟨w', hw', he⟩ := h
      have hk : k = w.1 := by
        rcases mem_cons.mp hw' with rfl | hmem
        · exact he.symm
        · exact absurd he (hne w' hmem)
      rw [writes_cons, writes_cons, writes_of_forall_ne _ _ _ hne,
        writes_of_forall_ne _ _ _ hne, write_apply, write_apply, if_pos hk, if_pos hk]

/-- Maps that agree at a key still agree there after the same writes. -/
theorem writes_congr_at (m' : K → Option V) (ws : List (Write K V)) (k : K) (h : m k = m' k)
    : writes m ws k = writes m' ws k := by
  by_cases hws : ∃ w ∈ ws, w.1 = k
  · exact writes_congr_of_mem m m' ws k hws
  · have hne : ∀ w ∈ ws, w.1 ≠ k := fun w hw he => hws ⟨w, hw, he⟩
    rw [writes_of_forall_ne _ _ _ hne, writes_of_forall_ne _ _ _ hne, h]

/-- Writes that are replayed over a map in which every key is as before or as
    after them give the map after them. -/
theorem writes_replay (d : K → Option V) (ws : List (Write K V))
    (h : ∀ k, d k = m k ∨ d k = writes m ws k) : writes d ws = writes m ws := by
  funext k
  by_cases hws : ∃ w ∈ ws, w.1 = k
  · exact writes_congr_of_mem d m ws k hws
  · have hne : ∀ w ∈ ws, w.1 ≠ k := fun w hw he => hws ⟨w, hw, he⟩
    have hm := writes_of_forall_ne m ws k hne
    rw [writes_of_forall_ne d ws k hne]
    rcases h k with hk | hk
    · rw [hk, hm]
    · exact hk

/-- What is at a key after some writes was there before, or one of them put it
    there. -/
theorem writes_cases (ws : List (Write K V)) (k : K) :
    writes m ws k = m k ∨ ∃ w ∈ ws, w.1 = k ∧ writes m ws k = w.2 := by
  induction ws generalizing m with
  | nil => exact .inl rfl
  | cons w ws ih =>
    rw [writes_cons]
    rcases ih (write m w) with heq | ⟨w', hw', hk, heq⟩
    · rw [heq, write_apply]
      by_cases hk : k = w.1
      · exact .inr ⟨w, mem_cons_self .., hk.symm, if_pos hk⟩
      · exact .inl (if_neg hk)
    · exact .inr ⟨w', mem_cons_of_mem _ hw', hk, heq⟩

variable {ws : List (Write K V)}

/-- With distinct keys every write is the last one to its key. -/
theorem writes_of_mem (hnd : (ws.map Prod.fst).Nodup) (m : K → Option V) {w : Write K V}
    (hw : w ∈ ws) : writes m ws w.1 = w.2 := by
  induction ws generalizing m with
  | nil => cases hw
  | cons w' ws ih =>
    rw [map_cons, nodup_cons] at hnd
    rw [writes_cons]
    rcases mem_cons.mp hw with rfl | hmem
    · rw [writes_of_forall_ne, write_apply, if_pos rfl]
      intro w' hw' heq
      exact hnd.1 (List.mem_map.mpr ⟨w', hw', heq⟩)
    · exact ih hnd.2 _ hmem

/-- The writes that delete some keys. -/
def deletes (ks : List K) : List (Write K V) := ks.map fun k => (k, none)

theorem writes_deletes (ks : List K) (k : K) :
    writes m (deletes ks) k = if k ∈ ks then none else m k := by
  induction ks generalizing m with
  | nil => rfl
  | cons k' ks ih =>
    show writes (write m (k', none)) (deletes ks) k = _
    rw [ih, write_apply]
    by_cases hk : k = k'
    · rw [if_pos hk, if_pos (mem_cons.mpr (Or.inl hk)), ite_self]
    · rw [if_neg hk]
      by_cases hks : k ∈ ks
      · rw [if_pos hks, if_pos (mem_cons_of_mem _ hks)]
      · rw [if_neg hks, if_neg fun hm => (mem_cons.mp hm).elim hk hks]

/-- Deleting the keys of some writes again gives the map without them back, when
    it had nothing there. -/
theorem writes_deletes_writes {m : K → Option V} (h : ∀ w ∈ ws, m w.1 = none) :
    writes (writes m ws) (deletes (ws.map Prod.fst)) = m := by
  funext k
  rw [writes_deletes]
  by_cases hk : k ∈ ws.map Prod.fst
  · obtain ⟨w, hw, rfl⟩ := List.mem_map.mp hk
    rw [if_pos hk, h w hw]
  · rw [if_neg hk]
    exact writes_of_forall_ne m ws k fun w hw hwk => hk (List.mem_map.mpr ⟨w, hw, hwk⟩)

/-! ## Writes to a finite map -/

/-- One write to an association list. -/
def put (s : AList fun _ : K => V) (w : Write K V) : AList fun _ : K => V :=
  match w.2 with
  | some v => s.insert w.1 v
  | none => s.erase w.1

def puts (s : AList fun _ : K => V) (ws : List (Write K V)) : AList fun _ : K => V :=
  ws.foldl put s

theorem lookup_put (s : AList fun _ : K => V) (w : Write K V) :
    (put s w).lookup = write s.lookup w := by
  obtain ⟨k, v⟩ := w
  funext k'
  rw [write_apply]
  cases v with
  | none => exact lookup_erase s k k'
  | some v => exact lookup_insert s k k' v

theorem lookup_puts (s : AList fun _ : K => V) (ws : List (Write K V)) :
    (puts s ws).lookup = writes s.lookup ws := by
  induction ws generalizing s with
  | nil => rfl
  | cons w ws ih =>
    show (puts (put s w) ws).lookup = _
    rw [ih, lookup_put]
    rfl

/-! ## Counting entries -/

theorem perm_cons_erase (h : s.lookup a = some b) :
    s.entries.Perm (⟨a, b⟩ :: (s.erase a).entries) := by
  have hmem : a ∈ s.keys := AList.mem_keys.mpr (lookup_isSome.mp (by rw [h]; rfl))
  obtain ⟨c, l, r, -, hs, he⟩ := exists_of_kerase (a := a) (l := s.entries) hmem
  have hc : s.lookup a = some c :=
    lookup_eq_some_iff_mem.mpr (by rw [hs]; exact mem_append_right _ (mem_cons_self ..))
  have hbc : c = b := Option.some.inj (hc.symm.trans h)
  have herase : (s.erase a).entries = l ++ r := he
  rw [herase, hs, hbc]
  exact perm_middle

/-- The number of entries whose value has a property. -/
def count (p : V → Bool) (s : AList fun _ : K => V) : Nat := s.entries.countP fun e => p e.2

variable {p : V → Bool}

theorem count_erase (h : s.lookup a = some b)
    : count p (s.erase a) + (p b).toNat = count p s := by
  rw [count, count, (perm_cons_erase h).countP_eq, countP_cons]
  cases p b <;> rfl

theorem erase_of_lookup_none (h : s.lookup a = none) : s.erase a = s := by
  have hmem : a ∉ s.entries.keys := fun hm => (lookup_eq_none.mp h) hm
  exact AList.ext (kerase_of_notMem_keys hmem)

theorem count_insert_eq (s : AList fun _ : K => V) (a : K) (b : V) :
    count p (s.insert a b) = count p (s.erase a) + (p b).toNat := by
  show (List.kinsert a b s.entries).countP _ = _
  rw [kinsert_def, countP_cons]
  cases p b <;> rfl

theorem count_insert (b' : V) (h : s.lookup a = some b) :
    count p (s.insert a b') + (p b).toNat = count p s + (p b').toNat := by
  have he := count_erase (p := p) h
  rw [count_insert_eq]
  omega

theorem count_insert_new (b : V) (h : s.lookup a = none)
    : count p (s.insert a b) = count p s + (p b).toNat := by
  rw [count_insert_eq, erase_of_lookup_none h]

/-! ## Summing over entries -/

section Sums

variable {M : Type*} [AddCommMonoid M] {f : V → M}

/-- The sum of a measure of the values. -/
def sumOf (f : V → M) (s : AList fun _ : K => V) : M := (s.entries.map fun e => f e.2).sum

omit [DecidableEq K] in
@[simp] theorem sumOf_empty : sumOf f (∅ : AList fun _ : K => V) = 0 := rfl

theorem sumOf_erase (h : s.lookup a = some b) : sumOf f s = f b + sumOf f (s.erase a) := by
  rw [sumOf, ((perm_cons_erase h).map _).sum_eq, map_cons, sum_cons]
  rfl

theorem sumOf_insert_eq : sumOf f (s.insert a b) = f b + sumOf f (s.erase a) := by
  show ((List.kinsert a b s.entries).map fun e => f e.2).sum = _
  rfl

theorem sumOf_insert_new (h : s.lookup a = none) : sumOf f (s.insert a b) = f b + sumOf f s := by
  rw [sumOf_insert_eq, erase_of_lookup_none h]

end Sums

/-! ## Mapping the values -/

section Mapping

variable {W : Type*} (g : V → W) (s : AList fun _ : K => V) (a : K)

/-- The same keys in the same order, with other values. -/
def mapValues : AList fun _ : K => W :=
  ⟨s.entries.map (Sigma.map id fun _ => g), s.nodupKeys.map₂ (fun _ => g)⟩

end Mapping

end Maps
