/-
  The loop that collects everything reachable in a finite graph: take the least
  staged node, mark it, stage its successors that are not marked yet.
-/
import Rcoin.Lib.SortedSet

namespace Worklist

open Finset Relation SortedSet

variable {K : Type*} [LinearOrder K]

/-- The successors that are not marked yet are staged. -/
def stageSuccessors (done stage : SortedSet K) (succs : SortedSet K) : SortedSet K :=
  succs.elems.foldl (fun s c => if c ∈ done then s else s.insert c) stage

/-- One round for each unit of fuel; `none` when the successors of a staged node
    are not known, or the fuel is used up. -/
def collect (next : K → Option (SortedSet K)) :
    Nat → SortedSet K → SortedSet K → Option (SortedSet K)
  | 0, stage, done => if stage.elems = [] then some done else none
  | fuel + 1, stage, done =>
    match stage.elems with
    | [] => some done
    | it :: _ =>
      match next it with
      | none => none
      | some succs =>
        collect next fuel (stageSuccessors (done.insert it) (stage.erase it) succs)
          (done.insert it)

/-- `c` is one of the successors of `a`. -/
def Succ (next : K → Option (SortedSet K)) (a c : K) : Prop := ∃ s, next a = some s ∧ c ∈ s

variable {done stage : SortedSet K} {x : K}

theorem mem_stage {l : List K} :
    x ∈ l.foldl (fun s c => if c ∈ done then s else s.insert c) stage ↔
      x ∈ stage ∨ (x ∈ l ∧ x ∉ done) := by
  induction l generalizing stage with
  | nil => simp
  | cons c l ih =>
    rw [List.foldl_cons, ih, List.mem_cons]
    split
    next hc =>
      constructor
      · rintro (h | ⟨h, hd⟩)
        · exact .inl h
        · exact .inr ⟨.inr h, hd⟩
      · rintro (h | ⟨rfl | h, hd⟩)
        · exact .inl h
        · exact absurd hc hd
        · exact .inr ⟨h, hd⟩
    next hc =>
      rw [SortedSet.mem_insert]
      constructor
      · rintro ((rfl | h) | ⟨h, hd⟩)
        · exact .inr ⟨.inl rfl, hc⟩
        · exact .inl h
        · exact .inr ⟨.inr h, hd⟩
      · rintro (h | ⟨rfl | h, hd⟩)
        · exact .inl (.inr h)
        · exact .inl (.inl rfl)
        · exact .inr ⟨h, hd⟩

theorem mem_stageSuccessors {succs : SortedSet K} :
    x ∈ stageSuccessors done stage succs ↔ x ∈ stage ∨ (x ∈ succs ∧ x ∉ done) := mem_stage

variable {next : K → Option (SortedSet K)}

variable {U : Finset K} {fuel : Nat}

/-- What is marked or staged in some round is marked in the end. -/
theorem mem_of_collect {res : SortedSet K} (h : collect next fuel stage done = some res) :
    (∀ x ∈ done, x ∈ res) ∧ ∀ x ∈ stage, x ∈ res := by
  have hnil : ∀ stage : SortedSet K, stage.elems = [] → ∀ x ∈ stage, x ∈ res := by
    intro stage hnil x hx
    rw [← mem_elems, hnil] at hx
    nomatch hx
  induction fuel generalizing stage done with
  | zero =>
    rw [collect] at h
    split at h
    next hst => exact ⟨fun x hx => Option.some.inj h ▸ hx, hnil stage hst⟩
    next => nomatch h
  | succ fuel ih =>
    rw [collect] at h
    split at h
    next hst => exact ⟨fun x hx => Option.some.inj h ▸ hx, hnil stage hst⟩
    next it rest _ =>
      split at h
      · nomatch h
      next succs _ =>
        obtain ⟨hdone, hstage⟩ := ih h
        refine ⟨fun x hx => hdone x (mem_insert.mpr (.inr hx)), fun x hx => ?_⟩
        by_cases hxit : x = it
        · exact hdone x (mem_insert.mpr (.inl hxit))
        · exact hstage x (mem_stageSuccessors.mpr (.inl (mem_erase.mpr ⟨hxit, hx⟩)))

/-! ## With results kept from earlier walks -/

/-- One successor: when a set is known for it, that set is marked; otherwise it is
    staged unless it is marked. -/
def visitSuccessor (cached : K → Option (SortedSet K)) (st : SortedSet K × SortedSet K) (c : K) :
    SortedSet K × SortedSet K :=
  match cached c with
  | some s => (st.1, st.2.insertAll s.elems)
  | none => if c ∈ st.2 then st else (st.1.insert c, st.2)

/-- The loop of `collect` with such sets; it carries the staged and the marked
    nodes. -/
def collectCached (next : K → Option (SortedSet K)) (cached : K → Option (SortedSet K)) :
    Nat → SortedSet K → SortedSet K → Option (SortedSet K)
  | 0, stage, done => if stage.elems = [] then some done else none
  | fuel + 1, stage, done =>
    match stage.elems with
    | [] => some done
    | it :: _ =>
      match next it with
      | none => none
      | some succs =>
        let st := succs.elems.foldl (visitSuccessor cached) (stage.erase it, done.insert it)
        collectCached next cached fuel st.1 st.2

variable {cached : K → Option (SortedSet K)}

/-- What the successors `l` of a node add to the staged and the marked nodes. -/
theorem foldl_visitSuccessor (l : List K) (st : SortedSet K × SortedSet K) :
    (∀ x, x ∈ (l.foldl (visitSuccessor cached) st).2 ↔
      x ∈ st.2 ∨ ∃ c ∈ l, ∃ s, cached c = some s ∧ x ∈ s) ∧
    (∀ x ∈ st.1, x ∈ (l.foldl (visitSuccessor cached) st).1) ∧
    (∀ x ∈ (l.foldl (visitSuccessor cached) st).1, x ∈ st.1 ∨ (x ∈ l ∧ x ∉ st.2)) ∧
    ∀ c ∈ l, (∃ s, cached c = some s) ∨ c ∈ (l.foldl (visitSuccessor cached) st).1 ∨
      c ∈ (l.foldl (visitSuccessor cached) st).2 := by
  induction l generalizing st with
  | nil => exact ⟨fun x => by simp, fun x h => h, fun x h => .inl h, fun c hc => by cases hc⟩
  | cons b l ih =>
    rw [List.foldl_cons]
    obtain ⟨hdone, hkeep, hstage, hall⟩ := ih (visitSuccessor cached st b)
    -- a successor with a known set is not staged: its set is marked whole
    cases hb : cached b with
    | some s =>
      have hvisit : visitSuccessor cached st b = (st.1, st.2.insertAll s.elems) := by
        rw [visitSuccessor, hb]
      rw [hvisit] at hdone hkeep hstage hall ⊢
      refine ⟨fun x => (hdone x).trans ?_, hkeep, fun x hx => ?_, fun c hc => ?_⟩
      · simp only [mem_insertAll, mem_elems, List.exists_mem_cons_iff, hb,
          Option.some.injEq, exists_eq_left', or_assoc]
      · rcases hstage x hx with h | ⟨h, hnot⟩
        · exact .inl h
        · exact .inr ⟨List.mem_cons_of_mem _ h,
            fun hm => hnot (mem_insertAll.mpr (.inl hm))⟩
      · rcases List.mem_cons.mp hc with rfl | hc
        · exact .inl ⟨s, hb⟩
        · exact hall c hc
    | none =>
      -- one without is staged unless it is marked
      by_cases hmem : b ∈ st.2
      · have hvisit : visitSuccessor cached st b = st := by
          rw [visitSuccessor, hb]
          exact if_pos hmem
        rw [hvisit] at hdone hkeep hstage hall ⊢
        refine ⟨fun x => (hdone x).trans (by simp [hb]), hkeep, fun x hx => ?_, fun c hc => ?_⟩
        · exact (hstage x hx).imp_right fun h => ⟨List.mem_cons_of_mem _ h.1, h.2⟩
        · rcases List.mem_cons.mp hc with rfl | hc
          · exact .inr (.inr ((hdone c).mpr (.inl hmem)))
          · exact hall c hc
      · have hvisit : visitSuccessor cached st b = (st.1.insert b, st.2) := by
          rw [visitSuccessor, hb]
          exact if_neg hmem
        rw [hvisit] at hdone hkeep hstage hall ⊢
        refine ⟨fun x => (hdone x).trans (by simp [hb]),
          fun x hx => hkeep x (mem_insert.mpr (.inr hx)), fun x hx => ?_,
          fun c hc => ?_⟩
        · rcases hstage x hx with h | h
          · rcases mem_insert.mp h with rfl | h
            · exact .inr ⟨List.mem_cons_self, hmem⟩
            · exact .inl h
          · exact .inr ⟨List.mem_cons_of_mem _ h.1, h.2⟩
        · rcases List.mem_cons.mp hc with rfl | hc
          · exact .inr (.inl (hkeep c (mem_insert.mpr (.inl rfl))))
          · exact hall c hc

/-- Nodes with a known set lie in `L`, which is closed under predecessors; the set
    holds what the node reaches outside `L`. -/
structure CacheOk (F : K → K → Prop) (L : Finset K) (cached : K → Option (SortedSet K)) :
    Prop where
  pred : ∀ a c, F a c → c ∈ L → a ∈ L
  mem : ∀ c s, cached c = some s → c ∈ L
  reached : ∀ c s, cached c = some s → ∀ x, x ∈ s ↔ x ∉ L ∧ TransGen F c x

variable {L : Finset K} {F : K → K → Prop}

theorem CacheOk.closed_of_nothing_staged {seen : Finset K} (hcache : CacheOk F L cached)
    (hcl : ∀ a ∈ seen, ∀ c, F a c → c ∈ stage ∨ c ∈ done ∨ ∃ s, cached c = some s ∧
      ∀ x ∈ s, x ∈ done)
    (hknown : ∀ a ∈ done, a ∉ seen → a ∉ L ∧ ∀ c, F a c → c ∈ done) (hnil : stage.elems = []) :
    (∀ x ∈ stage, x ∈ done) ∧ ∀ a ∈ done, ∀ c, F a c →
      c ∈ done ∨ c ∈ L ∧ ∀ x, x ∉ L → TransGen F c x → x ∈ done := by
  have hnone : ∀ x, x ∉ stage := by
    intro x hx
    rw [← mem_elems, hnil] at hx
    cases hx
  refine ⟨fun x hx => absurd hx (hnone x), fun a ha c hc => ?_⟩
  by_cases has : a ∈ seen
  · rcases hcl a has c hc with h | h | ⟨s, hs, hsub⟩
    · exact absurd h (hnone c)
    · exact .inl h
    · exact .inr ⟨hcache.mem c s hs,
        fun x hxL hx => hsub x ((hcache.reached c s hs x).mpr ⟨hxL, hx⟩)⟩
  · exact .inl ((hknown a ha has).2 c hc)

/-- The loop with known sets ends, marks only what the staged nodes reach, and
    marks all they reach outside `L`.  `seen` are the nodes taken from the stage so
    far; a marked node that is not seen came from a known set. -/
theorem collectCached_closed (hcache : CacheOk F L cached)
    (hnext : ∀ a ∈ U, ∃ s, next a = some s ∧ (∀ c, c ∈ s ↔ F a c) ∧ ∀ c ∈ s, c ∈ U)
    (seen : Finset K) (hstage : ∀ a ∈ stage, a ∈ U ∧ a ∉ seen) (hseen : ∀ a ∈ seen, a ∈ done)
    (hcl : ∀ a ∈ seen, ∀ c, F a c → c ∈ stage ∨ c ∈ done ∨ ∃ s, cached c = some s ∧
      ∀ x ∈ s, x ∈ done) (hknown : ∀ a ∈ done, a ∉ seen → a ∉ L ∧ ∀ c, F a c → c ∈ done)
    (hfuel : (U \ seen).card ≤ fuel) :
    ∃ res, collectCached next cached fuel stage done = some res ∧ (∀ x ∈ done, x ∈ res) ∧
      (∀ x ∈ stage, x ∈ res) ∧
      (∀ a ∈ res, ∀ c, F a c → c ∈ res ∨ c ∈ L ∧ ∀ x, x ∉ L → TransGen F c x → x ∈ res) ∧
      ∀ x ∈ res, x ∈ done ∨ ∃ a ∈ stage, ReflTransGen F a x := by
  -- a round moves one node of U out of the stage into `seen`, which the stage avoids
  induction fuel generalizing seen stage done with
  | zero =>
    have hnil : stage.elems = [] := by
      by_contra hne
      obtain ⟨a, ha⟩ := List.exists_mem_of_ne_nil _ hne
      have hpos : 0 < (U \ seen).card :=
        card_pos.mpr ⟨a, mem_sdiff.mpr (hstage a ha)⟩
      omega
    obtain ⟨hsub, hclosed⟩ := hcache.closed_of_nothing_staged hcl hknown hnil
    exact ⟨done, by rw [collectCached, if_pos hnil], fun x hx => hx, hsub, hclosed,
      fun x hx => .inl hx⟩
  | succ fuel ih =>
    rw [collectCached]
    split
    next hnil =>
      obtain ⟨hsub, hclosed⟩ := hcache.closed_of_nothing_staged hcl hknown hnil
      exact ⟨done, rfl, fun x hx => hx, hsub, hclosed, fun x hx => .inl hx⟩
    next it rest hcons =>
      have hit : it ∈ stage := by
        rw [← mem_elems, hcons]
        exact List.mem_cons_self
      obtain ⟨hitU, hitseen⟩ := hstage it hit
      obtain ⟨succs, hsuccs, hsucc, hsub⟩ := hnext it hitU
      simp only [hsuccs]
      obtain ⟨hdone', hkeep, hstaged, hall⟩ :=
        @foldl_visitSuccessor K _ cached succs.elems (stage.erase it, done.insert it)
      generalize succs.elems.foldl (visitSuccessor cached) (stage.erase it, done.insert it) = st
        at hdone' hkeep hstaged hall
      obtain ⟨stage', done'⟩ := st
      have hmono : ∀ x ∈ done, x ∈ done' := fun x hx =>
        (hdone' x).mpr (.inl (mem_insert.mpr (.inr hx)))
      have hitdone : it ∈ done' := (hdone' it).mpr (.inl (mem_insert.mpr (.inl rfl)))
      have hset : ∀ c ∈ succs, ∀ s, cached c = some s → ∀ x ∈ s, x ∈ done' :=
        fun c hc s hs x hx => (hdone' x).mpr (.inr ⟨c, hc, s, hs, hx⟩)
      have hstage1 : ∀ a ∈ stage', a ∈ U ∧ a ∉ insert it seen := by
        intro a ha
        rw [Finset.mem_insert]
        rcases hstaged a ha with h | ⟨h, hnot⟩
        · obtain ⟨hne, h⟩ := mem_erase.mp h
          exact ⟨(hstage a h).1, fun hor => hor.elim hne (hstage a h).2⟩
        · refine ⟨hsub a h, fun hor => hnot (mem_insert.mpr ?_)⟩
          exact hor.imp_right fun hs => hseen a hs
      have hseen1 : ∀ a ∈ insert it seen, a ∈ done' := by
        intro a ha
        rcases mem_insert.mp ha with rfl | ha
        · exact hitdone
        · exact hmono a (hseen a ha)
      have hcl1 : ∀ a ∈ insert it seen, ∀ c, F a c → c ∈ stage' ∨ c ∈ done' ∨
          ∃ s, cached c = some s ∧ ∀ x ∈ s, x ∈ done' := by
        intro a ha c hc
        rcases mem_insert.mp ha with rfl | ha
        · have hmem := (hsucc c).mpr hc
          rcases hall c hmem with ⟨s, hs⟩ | h
          · exact .inr (.inr ⟨s, hs, hset c hmem s hs⟩)
          · exact h.imp_right .inl
        · rcases hcl a ha c hc with h | h | ⟨s, hs, hx⟩
          · by_cases hci : c = it
            · exact .inr (.inl (hci ▸ hitdone))
            · exact .inl (hkeep c (mem_erase.mpr ⟨hci, h⟩))
          · exact .inr (.inl (hmono c h))
          · exact .inr (.inr ⟨s, hs, fun x hxs => hmono x (hx x hxs)⟩)
      have hknown1 : ∀ a ∈ done', a ∉ insert it seen → a ∉ L ∧ ∀ c, F a c → c ∈ done' := by
        intro a ha hnot
        rw [Finset.mem_insert, not_or] at hnot
        rcases (hdone' a).mp ha with h | ⟨b, hb, s, hs, has⟩
        · obtain ⟨haL, hclosed⟩ :=
            hknown a ((mem_insert.mp h).resolve_left hnot.1) hnot.2
          exact ⟨haL, fun c hc => hmono c (hclosed c hc)⟩
        · -- a known set is closed under successors
          obtain ⟨haL, hreach⟩ := (hcache.reached b s hs a).mp has
          refine ⟨haL, fun c hc => hset b hb s hs c ((hcache.reached b s hs c).mpr ⟨?_, ?_⟩)⟩
          · exact fun hcL => haL (hcache.pred a c hc hcL)
          · exact hreach.tail hc
      have hfuel1 : (U \ insert it seen).card ≤ fuel := by
        have hss : U \ insert it seen ⊂ U \ seen := by
          refine (ssubset_iff_of_subset ?_).mpr
            ⟨it, mem_sdiff.mpr ⟨hitU, hitseen⟩, fun h =>
              (mem_sdiff.mp h).2 (mem_insert_self it seen)⟩
          exact sdiff_subset_sdiff (le_refl U) (subset_insert it seen)
        have := card_lt_card hss
        omega
      obtain ⟨res, hres, hdoneres, hstageres, hclosed, hsound⟩ :=
        ih (insert it seen) hstage1 hseen1 hcl1 hknown1 hfuel1
      refine ⟨res, hres, fun x hx => hdoneres x (hmono x hx), fun x hx => ?_, hclosed,
        fun x hx => ?_⟩
      · by_cases hxi : x = it
        · exact hdoneres x (hxi ▸ hitdone)
        · exact hstageres x (hkeep x (mem_erase.mpr ⟨hxi, hx⟩))
      · rcases hsound x hx with h | ⟨a, ha, hreach⟩
        · rcases (hdone' x).mp h with h | ⟨b, hb, s, hs, hxs⟩
          · rcases mem_insert.mp h with rfl | h
            · exact .inr ⟨x, hit, .refl⟩
            · exact .inl h
          · obtain ⟨-, hreach⟩ := (hcache.reached b s hs x).mp hxs
            exact .inr ⟨it, hit, .head ((hsucc b).mp hb)
              hreach.to_reflTransGen⟩
        · rcases hstaged a ha with h | ⟨h, -⟩
          · exact .inr ⟨a, (mem_erase.mp h).2, hreach⟩
          · exact .inr ⟨it, hit, .head ((hsucc a).mp h) hreach⟩

/-- With no known sets the loop is the one without them. -/
theorem collectCached_none : ∀ stage done : SortedSet K,
    collectCached next (fun _ => none) fuel stage done = collect next fuel stage done := by
  have hfold : ∀ (l : List K) (stage done : SortedSet K),
      l.foldl (visitSuccessor fun _ => none) (stage, done) =
        (l.foldl (fun s c => if c ∈ done then s else s.insert c) stage, done) := by
    intro l
    induction l with
    | nil => exact fun _ _ => rfl
    | cons c l ih =>
      intro stage done
      rw [List.foldl_cons, List.foldl_cons, ← ih]
      show l.foldl _ (if c ∈ done then _ else _) = _
      split <;> rfl
  induction fuel with
  | zero => exact fun _ _ => rfl
  | succ fuel ih =>
    intro stage done
    rw [collectCached, collect]
    split
    next => rfl
    next it rest _ =>
      cases next it with
      | none => rfl
      | some succs =>
        simp only [hfold, ih]
        rfl

/-- In a finite graph `U` with as much fuel as there are unmarked nodes the loop
    ends.  What it has marked then contains the nodes it started with and all
    their successors, and nothing the staged nodes do not reach. -/
theorem collect_closed (hnext : ∀ a ∈ U, ∃ s, next a = some s ∧ ∀ c ∈ s, c ∈ U)
    (hstage : ∀ a ∈ stage, a ∈ U ∧ a ∉ done)
    (hclosed : ∀ a ∈ done, ∀ c, Succ next a c → c ∈ done ∨ c ∈ stage)
    (hfuel : (U \ done.toFinset).card ≤ fuel) :
    ∃ res, collect next fuel stage done = some res ∧ (∀ x ∈ done, x ∈ res) ∧
      (∀ x ∈ stage, x ∈ res) ∧ (∀ a ∈ res, ∀ c, Succ next a c → c ∈ res) ∧
      ∀ x ∈ res, x ∈ done ∨ ∃ a ∈ stage, ReflTransGen (Succ next) a x := by
  have hcache : CacheOk (Succ next) ∅ fun _ => none :=
    ⟨fun _ _ _ h => absurd h (notMem_empty _), nofun, nofun⟩
  have hnext' : ∀ a ∈ U, ∃ s, next a = some s ∧ (∀ c, c ∈ s ↔ Succ next a c) ∧ ∀ c ∈ s, c ∈ U := by
    intro a ha
    obtain ⟨s, hs, hsub⟩ := hnext a ha
    refine ⟨s, hs, fun c => ⟨fun hc => ⟨s, hs, hc⟩, ?_⟩, hsub⟩
    rintro ⟨s', hs', hc⟩
    rw [hs] at hs'
    exact Option.some.inj hs' ▸ hc
  obtain ⟨res, hres, hdone, hstaged, hcl, hsound⟩ := collectCached_closed hcache hnext'
    done.toFinset hstage (fun a ha => ha)
    (fun a ha c hc => (hclosed a ha c hc).elim (fun h => .inr (.inl h)) .inl)
    (fun a ha hnot => absurd ha hnot) hfuel
  rw [collectCached_none] at hres
  exact ⟨res, hres, hdone, hstaged,
    fun a ha c hc => (hcl a ha c hc).resolve_right fun h => notMem_empty c h.1, hsound⟩

/-- The loop marks what was marked and what the staged nodes reach. -/
theorem collect_spec (hnext : ∀ a ∈ U, ∃ s, next a = some s ∧ ∀ c ∈ s, c ∈ U)
    (stage done : SortedSet K) (hstage : ∀ a ∈ stage, a ∈ U ∧ a ∉ done)
    (hclosed : ∀ a ∈ done, ∀ c, Succ next a c → c ∈ done ∨ c ∈ stage) (hfuel : U.card ≤ fuel) :
    ∃ res, collect next fuel stage done = some res ∧
      ∀ x, x ∈ res ↔ x ∈ done ∨ ∃ a ∈ stage, ReflTransGen (Succ next) a x := by
  obtain ⟨res, hres, hdone, hstaged, hcl, hsound⟩ := collect_closed hnext hstage hclosed
    ((card_le_card sdiff_subset).trans hfuel)
  refine ⟨res, hres, fun x => ⟨hsound x, ?_⟩⟩
  rintro (h | ⟨a, ha, hreach⟩)
  · exact hdone x h
  · induction hreach with
    | refl => exact hstaged a ha
    | tail _ hc ih => exact hcl _ ih _ hc

/-- Started with the successors of a node, the loop finds what the node properly
    reaches outside `L`. -/
theorem collectCached_spec (hcache : CacheOk F L cached)
    (hnext : ∀ a ∈ U, ∃ s, next a = some s ∧ (∀ c, c ∈ s ↔ F a c) ∧ ∀ c ∈ s, c ∈ U) {r : K}
    (hstage : ∀ c, c ∈ stage ↔ F r c) (hU : ∀ c ∈ stage, c ∈ U) (hfuel : U.card ≤ fuel) :
    ∃ res, collectCached next cached fuel stage ∅ = some res ∧ (∀ x ∈ res, TransGen F r x) ∧
      ∀ x, x ∉ L → TransGen F r x → x ∈ res := by
  have hstage0 : ∀ a ∈ stage, a ∈ U ∧ a ∉ (∅ : Finset K) :=
    fun a ha => ⟨hU a ha, notMem_empty a⟩
  have hseen0 : ∀ a ∈ (∅ : Finset K), a ∈ (∅ : SortedSet K) :=
    fun a ha => absurd ha (notMem_empty a)
  obtain ⟨res, hres, -, hstaged, hclosed, hsound⟩ := collectCached_closed hcache hnext ∅ hstage0
    hseen0 (fun a ha => absurd ha (notMem_empty a))
    (fun a ha => absurd ha (not_mem_empty a))
    ((card_le_card sdiff_subset).trans hfuel)
  refine ⟨res, hres, fun x hx => ?_, fun x hxL hx => ?_⟩
  · rcases hsound x hx with h | ⟨a, ha, hreach⟩
    · exact absurd h (not_mem_empty x)
    · exact .head' ((hstage a).mp ha) hreach
  · -- each node that is reached is marked, or lies in `L` with all it reaches outside marked
    have hcov : ∀ c, TransGen F r c →
        c ∈ res ∨ c ∈ L ∧ ∀ y, y ∉ L → TransGen F c y → y ∈ res := by
      intro c hc
      induction hc with
      | single h => exact .inl (hstaged _ ((hstage _).mpr h))
      | tail hb hbc ih =>
        rcases ih with h | ⟨-, h⟩
        · exact hclosed _ h _ hbc
        · rename_i b c
          by_cases hcL : c ∈ L
          · exact .inr ⟨hcL, fun y hy hcy => h y hy (.head hbc hcy)⟩
          · exact .inl (h c hcL (.single hbc))
    exact (hcov x hx).resolve_right fun h => hxL h.1

end Worklist
