/-
  `prevector<N, T>` (src/prevector.h). Its memory is a list of cells, of which some hold no
  value; what reads the wrong part of the union or a cell that is not there faults. A
  `const T&` may refer to an element of the vector itself: it is then read from the memory
  when the source reads it, after the elements have moved.
-/
import Mathlib

namespace Rcoin

open Function List Nat Option

/-! ## The memory -/

inductive DirectOrIndirect (T : Type) where
  | direct (mem : List (Option T))
  | indirect (capacity : Nat) (mem : List (Option T))

/-- The union, and the size with what says which member is in use. -/
structure Prevector (T : Type) where
  _size : Nat
  _union : DirectOrIndirect T

namespace Prevector

def readMem {T : Type} (m : List (Option T)) (pos n : Nat) : Option (List (Option T)) :=
  if pos + n ≤ m.length then some ((m.drop pos).take n) else none

def writeMem {T : Type} (m : List (Option T)) (pos : Nat) (xs : List (Option T)) :
    Option (List (Option T)) :=
  if pos + xs.length ≤ m.length then some (m.take pos ++ xs ++ m.drop (pos + xs.length)) else none

/-- What a `const T&` or an iterator refers to: a value outside of the vector, or one of the
    vector's own elements. -/
inductive Arg (α : Type) where
  | value (val : α)
  | element (i : Nat)

/-- Other memory has taken the place of the elements if `moved`: the reference dangles. -/
def Arg.read {T : Type} (moved : Bool) (m : List (Option T)) : Arg (Option T) → Option (Option T)
  | .value val => some val
  | .element i => if moved then none else m[i]?

def Arg.cell {T : Type} : Arg T → Arg (Option T)
  | .value val => .value (some val)
  | .element i => .element i

/-- `fill(dst, ...)`: each argument is read when it is its turn. -/
def fillMem {T : Type} (moved : Bool) :
    List (Arg (Option T)) → Nat → List (Option T) → Option (List (Option T))
  | [], _, m => some m
  | arg :: args, pos, m => do
    fillMem moved args (pos + 1) (← writeMem m pos [← arg.read moved m])

/-- A `size_type`. -/
def wrap (x : Nat) : Nat := x % 2 ^ 32

/-! ## The operations -/

section

variable {T : Type} (N : Nat) (v : Prevector T)

def isDirect : Bool := decide (v._size ≤ N)

def size : Nat := if v.isDirect N then v._size else v._size - N - 1

def capacity : Option Nat :=
  if v.isDirect N then some N
  else match v._union with
    | .direct _ => none
    | .indirect capacity _ => some capacity

/-- What is at `item_ptr(0)`. -/
def items : Option (List (Option T)) :=
  match v._union with
  | .direct mem => if v.isDirect N then some mem else none
  | .indirect _ mem => if v.isDirect N then none else some mem

/-- The same memory with other contents. -/
def setItems (m : List (Option T)) : Prevector T :=
  { v with _union := match v._union with
      | .direct _ => .direct m
      | .indirect capacity _ => .indirect capacity m }

def changeCapacity (new_capacity : Nat) : Option (Prevector T) :=
  if new_capacity ≤ N then
    if !v.isDirect N then do
      let src ← readMem (← v.items N) 0 (v.size N)
      return ⟨v._size - (N + 1), .direct (← writeMem (replicate N none) 0 src)⟩
    else some v
  else if !v.isDirect N then do
    let mem ← v.items N
    return ⟨v._size, .indirect new_capacity
      (mem.take new_capacity ++ replicate (new_capacity - mem.length) none)⟩
  else do
    let src ← readMem (← v.items N) 0 (v.size N)
    let new_indirect ← writeMem (replicate new_capacity none) 0 src
    return ⟨wrap (v._size + (N + 1)), .indirect new_capacity new_indirect⟩

/-- `if (capacity() < n) change_capacity(new_capacity)`. -/
def ensure (n new_capacity : Nat) : Option (Prevector T) := do
  if (← v.capacity N) < n then v.changeCapacity N new_capacity else some v

def reserve (new_capacity : Nat) : Option (Prevector T) := v.ensure N new_capacity new_capacity

def shrinkToFit : Option (Prevector T) := v.changeCapacity N (v.size N)

/-- `erase(first, last)`. -/
def eraseRange (first last : Nat) : Option (Prevector T) := do
  let mem ← v.items N
  let tail ← readMem mem last (v.size N - last)
  return { v.setItems (← writeMem mem first tail) with _size := v._size - (last - first) }

def popBack : Option (Prevector T) := v.eraseRange N (v.size N - 1) (v.size N)

/-- `zero` is `T()`. -/
def resize (zero : T) (new_size : Nat) : Option (Prevector T) :=
  let cur_size := v.size N
  if cur_size = new_size then some v
  else if cur_size > new_size then v.eraseRange N new_size cur_size
  else do
    let v ← v.ensure N new_size new_size
    let increase := new_size - cur_size
    let mem ← writeMem (← v.items N) cur_size (replicate increase (some zero))
    return { v.setItems mem with _size := wrap (v._size + increase) }

def clear (zero : T) : Option (Prevector T) := v.resize N zero 0

/-- Whether `ensure` replaces the memory. -/
def moves (n : Nat) : Option Bool := do return decide ((← v.capacity N) < n)

/-- `_size += n; fill(item_ptr(0), ...)`. -/
def fill (moved : Bool) (args : List (Arg (Option T))) : Option (Prevector T) := do
  let v := { v with _size := wrap (v._size + args.length) }
  return v.setItems (← fillMem moved args 0 (← v.items N))

/-- Both forms of `assign`; the arguments are one value many times or those of a range. -/
def assign (zero : T) (args : List (Arg (Option T))) : Option (Prevector T) := do
  let v ← v.clear N zero
  let moved ← v.moves N args.length
  let v ← v.ensure N args.length args.length
  v.fill N moved args

/-- The three forms of `insert`; `again` says whether `item_ptr(p)` is computed once more after
    the size has changed. -/
def insert (again : Bool) (p : Nat) (args : List (Arg (Option T))) : Option (Prevector T) := do
  let new_size := wrap (v.size N + args.length)
  let moved ← v.moves N new_size
  let v ← v.ensure N new_size (wrap (new_size + new_size / 2))
  let mem ← v.items N
  let mem ← writeMem mem (p + args.length) (← readMem mem p (v.size N - p))
  let v := { v.setItems mem with _size := wrap (v._size + args.length) }
  let mem ← if again then v.items N else some mem
  return v.setItems (← fillMem moved args p mem)

def pushBack (value : Arg (Option T)) : Option (Prevector T) := do
  let new_size := wrap (v.size N + 1)
  let moved ← v.moves N new_size
  let v ← v.ensure N new_size (wrap (new_size + new_size / 2))
  let mem ← fillMem moved [value] (v.size N) (← v.items N)
  return { v.setItems mem with _size := wrap (v._size + 1) }

variable (T) in
def empty : Prevector T := ⟨0, .direct (replicate N none)⟩

/-- What is between `begin()` and `end()`. -/
def contents : Option (List (Option T)) := do readMem (← v.items N) 0 (v.size N)

/-- `prevector(const prevector& other)`. -/
def copy (other : Prevector T) : Option (Prevector T) := do
  let v ← (empty T N).changeCapacity N (other.size N)
  v.fill N false ((← other.contents N).map .value)

/-- `operator=` from another vector. -/
def copyAssign (zero : T) (other : Prevector T) : Option (Prevector T) := do
  v.assign N zero ((← other.contents N).map .value)

end

/-! ## Contents -/

section

variable {T : Type} {N : Nat} {v : Prevector T} {l : List T}

/-- The elements are where the size says. -/
def Holds (N : Nat) (v : Prevector T) (l : List T) : Prop :=
  match v._union with
  | .direct mem => v._size = l.length ∧ mem.length = N ∧ ∃ rest, mem = l.map some ++ rest
  | .indirect capacity mem => N < 2 ^ 31 ∧ v._size = l.length + (N + 1) ∧
    mem.length = capacity ∧ ∃ rest, mem = l.map some ++ rest

theorem items_direct (s : Nat) (m : List (Option T)) :
    items N ⟨s, .direct m⟩ = if s ≤ N then some m else none :=
  if_congr decide_eq_true_iff rfl rfl

theorem items_indirect (s c : Nat) (m : List (Option T)) :
    items N ⟨s, .indirect c m⟩ = if s ≤ N then none else some m :=
  if_congr decide_eq_true_iff rfl rfl

theorem holds_empty : Holds N (empty T N) [] :=
  ⟨rfl, length_replicate, _, rfl⟩

theorem Holds.facts (h : Holds N v l) : ∃ mem rest, v.items N = some mem ∧
    mem = l.map some ++ rest ∧ v.capacity N = some mem.length ∧ v.size N = l.length ∧
    (mem.length < 2 ^ 31 → N < 2 ^ 31) ∧
    (∀ s k mem', s + l.length = v._size + k → k ≤ mem.length → mem'.length = mem.length →
      ({ v.setItems mem' with _size := s } : Prevector T).items N = some mem') ∧
    ∀ s l' rest', s + l.length = v._size + l'.length →
      (l'.map some ++ rest').length = mem.length →
      Holds N { v.setItems (l'.map some ++ rest') with _size := s } l' := by
  obtain ⟨_size, mem | ⟨capacity, mem⟩⟩ := v
  · obtain ⟨rfl, hlen, rest, rfl⟩ := h
    rw [length_append, length_map] at hlen
    have hdirect : l.length ≤ N := by omega
    refine ⟨_, rest, if_pos (decide_eq_true hdirect), rfl, ?_, if_pos (decide_eq_true hdirect), ?_,
      fun s k mem' hs hk hmem => if_pos (decide_eq_true ?_), fun s l' rest' hs hlen' => ?_⟩
    · rw [capacity, isDirect, decide_eq_true hdirect, length_append, length_map, hlen]
      rfl
    · rw [length_append, length_map, hlen]
      exact id
    · rw [length_append, length_map] at hk
      dsimp only at hs ⊢
      omega
    · dsimp only at hs
      refine ⟨show s = l'.length by omega, ?_, rest', rfl⟩
      rw [hlen', length_append, length_map, hlen]
  · obtain ⟨hN, hsize, rfl, rest, rfl⟩ := h
    subst hsize
    have hnot : ¬l.length + (N + 1) ≤ N := by omega
    refine ⟨_, rest, if_neg (by simpa [isDirect] using hnot), rfl, ?_, ?_, fun _ => hN,
      fun s k mem' hs hk hmem => if_neg ?_, fun s l' rest' hs hlen' => ?_⟩
    · rw [capacity, isDirect, decide_eq_false hnot]
      rfl
    · rw [size, isDirect, decide_eq_false hnot]
      exact (by omega : l.length + (N + 1) - N - 1 = l.length)
    · rw [isDirect, decide_eq_true_eq]
      dsimp only at hs ⊢
      omega
    · dsimp only at hs
      exact ⟨hN, show s = l'.length + (N + 1) by omega, hlen', rest', rfl⟩

variable {mem : List (Option T)}

theorem Holds.le_capacity (h : Holds N v l) (hmem : v.items N = some mem) :
    l.length ≤ mem.length := by
  obtain ⟨mem', rest, heq, rfl, -⟩ := h.facts
  cases heq.symm.trans hmem
  simp

theorem setItems_setItems (m m' : List (Option T)) (s : Nat) :
    ({ v.setItems m with _size := s } : Prevector T).setItems m' =
      { v.setItems m' with _size := s } := by
  obtain ⟨_size, mem | ⟨capacity, mem⟩⟩ := v <;> rfl

theorem setItems_items (h : v.items N = some mem) : v.setItems mem = v := by
  obtain ⟨_size, m | ⟨capacity, m⟩⟩ := v
  · rw [items_direct, ite_none_right_eq_some] at h
    cases h.2
    rfl
  · rw [items_indirect, ite_none_left_eq_some] at h
    cases h.2
    rfl

theorem Holds.size_le (h : Holds N v l) : v._size ≤ l.length + 2 ^ 31 := by
  obtain ⟨_size, mem | ⟨capacity, mem⟩⟩ := v
  · obtain ⟨rfl, -⟩ := h
    exact le_add_right _ _
  · obtain ⟨hN, rfl, -⟩ := h
    exact Nat.add_le_add_left hN _

theorem readMem_all {rest : List (Option T)} :
    readMem (l.map some ++ rest) 0 l.length = some (l.map some) := by
  rw [readMem, if_pos (by simp), drop_zero, take_left' (length_map _)]

theorem writeMem_all {cells m : List (Option T)} (h : cells.length ≤ m.length) :
    writeMem m 0 cells = some (cells ++ m.drop cells.length) := by
  rw [writeMem, if_pos (by omega), List.take_zero, nil_append, Nat.zero_add]

theorem length_writeMem {m m' cells : List (Option T)} {pos : Nat}
    (h : writeMem m pos cells = some m') : m'.length = m.length := by
  rw [writeMem] at h
  split at h
  · cases h
    simp only [length_append, length_take, length_drop]
    omega
  · cases h

theorem changeCapacity_ok (h : Holds N v l) (hl : l.length < 2 ^ 31) {c : Nat}
    (hc : l.length ≤ c) (hN : N < c → N < 2 ^ 31) :
    ∃ v', v.changeCapacity N c = some v' ∧ Holds N v' l ∧
      ∀ mem, v'.items N = some mem → c ≤ mem.length := by
  obtain ⟨mem, rest, hitems, hmem, -, hsize, -⟩ := h.facts
  have hread : readMem mem 0 (v.size N) = some (l.map some) := by
    rw [hmem, hsize]
    exact readMem_all
  have hwrite : ∀ n, l.length ≤ n → writeMem (List.replicate n none) 0 (l.map some) =
      some (l.map some ++ (List.replicate n none).drop l.length) := by
    intro n hn
    rw [writeMem_all (by simpa using hn), length_map]
  have hlen : ∀ n, l.length ≤ n →
      (l.map some ++ (List.replicate n (none : Option T)).drop l.length).length = n := by
    simp only [length_append, length_map, length_drop, length_replicate]
    omega
  rw [changeCapacity]
  obtain ⟨_size, m | ⟨capacity, m⟩⟩ := v
  · obtain ⟨rfl, hm, hrest⟩ := h
    have hfit : l.length ≤ N := by
      obtain ⟨rest, rfl⟩ := hrest
      rw [length_append, length_map] at hm
      omega
    have hdirect : isDirect N ⟨l.length, .direct m⟩ = true := decide_eq_true hfit
    by_cases hle : c ≤ N
    · refine ⟨⟨l.length, .direct m⟩, by rw [if_pos hle, hdirect]; rfl, ⟨rfl, hm, hrest⟩, ?_⟩
      intro mem' hmem'
      rw [items_direct, if_pos hfit] at hmem'
      cases hmem'
      omega
    · have hwrap : wrap (l.length + (N + 1)) = l.length + (N + 1) := by
        exact mod_eq_of_lt (by omega)
      refine ⟨⟨l.length + (N + 1), .indirect c _⟩, ?_,
        ⟨hN (by omega), rfl, hlen c hc, _, rfl⟩, fun mem' hmem' => ?_⟩
      · simp only [if_neg hle, hdirect, Bool.not_true, Bool.false_eq_true, if_false, hitems,
          bind_eq_bind, bind_some, hread, hwrite c hc, hwrap]
        rfl
      · rw [items_indirect, if_neg (by omega)] at hmem'
        cases hmem'
        exact Nat.le_of_eq (hlen c hc).symm
  · obtain ⟨hN', rfl, hm, hrest⟩ := h
    have hindirect : isDirect N ⟨l.length + (N + 1), .indirect capacity m⟩ = false :=
      decide_eq_false (by dsimp only; omega)
    rw [items_indirect, if_neg (by omega)] at hitems
    obtain rfl : m = mem := Option.some.inj hitems
    by_cases hle : c ≤ N
    · have hfit : l.length ≤ N := by omega
      refine ⟨⟨l.length, .direct _⟩, ?_, ⟨rfl, hlen N hfit, _, rfl⟩, fun mem' hmem' => ?_⟩
      · simp only [if_pos hle, hindirect, Bool.not_false, if_true, items, Bool.false_eq_true,
          if_false, bind_eq_bind, bind_some, hread, hwrite N hfit,
          Nat.add_sub_cancel]
        rfl
      · rw [items_direct, if_pos hfit] at hmem'
        cases hmem'
        rw [hlen N hfit]
        exact hle
    · have hcut : (m.take c ++ List.replicate (c - m.length) none).length = c := by
        rw [length_append, length_take, length_replicate]
        omega
      refine ⟨⟨l.length + (N + 1), .indirect c _⟩, ?_, ⟨hN', rfl, hcut, ?_⟩, fun mem' hmem' => ?_⟩
      · simp only [if_neg hle, hindirect, Bool.not_false, if_true, items, Bool.false_eq_true,
          if_false, bind_eq_bind, bind_some]
        rfl
      · obtain ⟨rest', rfl⟩ := hrest
        rw [take_append, take_of_length_le (by simpa using hc), append_assoc]
        exact ⟨_, rfl⟩
      · rw [items_indirect, if_neg (by omega)] at hmem'
        cases hmem'
        exact Nat.le_of_eq hcut.symm

theorem ensure_ok (h : Holds N v l) (hl : l.length < 2 ^ 31) {n c : Nat} (hn : n < 2 ^ 31)
    (hc : n ≤ c) : ∃ v', v.ensure N n c = some v' ∧ Holds N v' l ∧
      ∀ mem, v'.items N = some mem → n ≤ mem.length := by
  obtain ⟨mem, rest, hitems, hmem, hcap, hsize, hsmall, -⟩ := h.facts
  have hle := h.le_capacity hitems
  rw [ensure, hcap]
  simp only [bind_eq_bind, bind_some]
  split
  next hless =>
    obtain ⟨v', heq, hv', hlen⟩ := changeCapacity_ok h hl (c := c) (by omega)
      fun _ => hsmall (by omega)
    exact ⟨v', heq, hv', fun mem' hmem' => Nat.le_trans hc (hlen mem' hmem')⟩
  next hmore =>
    refine ⟨v, rfl, h, fun mem' hmem' => ?_⟩
    cases hitems.symm.trans hmem'
    exact Nat.le_of_not_lt hmore

theorem eraseRange_ok (h : Holds N v l) {a b : Nat} (hab : a ≤ b) (hb : b ≤ l.length) :
    ∃ v', v.eraseRange N a b = some v' ∧ Holds N v' (l.take a ++ l.drop b) := by
  obtain ⟨mem, rest, hitems, hmem, hcap, hsize, hsmall, -, hput⟩ := h.facts
  have hread : readMem mem b (v.size N - b) = some ((l.drop b).map some) := by
    rw [hsize, hmem, readMem, if_pos (by simp; omega), drop_append_of_le_length (by simpa),
      ← map_drop, take_left' (by simp)]
  have hwrite : writeMem mem a ((l.drop b).map some) = some ((l.take a ++ l.drop b).map some ++
      mem.drop (a + (l.length - b))) := by
    rw [writeMem, if_pos (by rw [hmem]; simp; omega), map_append, length_map,
      length_drop, hmem, take_append_of_le_length (by simp; omega), ← map_take]
  refine ⟨_, ?_, hput (v._size - (b - a)) _ (mem.drop (a + (l.length - b))) ?_ ?_⟩
  · rw [eraseRange, hitems]
    simp only [bind_eq_bind, bind_some, hread, hwrite]
    rfl
  · have hsz := hsize
    rw [size] at hsz
    rw [length_append, length_take, length_drop]
    split at hsz <;> omega
  · have := length_writeMem hwrite
    exact this

theorem writeMem_append (a rest xs : List (Option T))
    (h : xs.length ≤ rest.length) :
    writeMem (a ++ rest) a.length xs = some (a ++ (xs ++ rest.drop xs.length)) := by
  rw [writeMem, if_pos (by simpa using h), take_left, drop_length_add_append,
    append_assoc]

theorem writeMem_splice (a b rest xs : List (Option T))
    (h : xs.length ≤ rest.length) :
    ∃ m, writeMem (a ++ (b ++ rest)) (a.length + xs.length) b = some m ∧
      writeMem m a.length xs = some (a ++ (xs ++ (b ++ rest.drop xs.length))) := by
  have hgap : ((b ++ rest).take xs.length).length = xs.length := by
    rw [length_take, length_append]
    omega
  have hmove := writeMem_append (a ++ (b ++ rest).take xs.length)
    ((b ++ rest).drop xs.length) b (by simp; omega)
  rw [append_assoc, take_append_drop, length_append, hgap, drop_drop,
    Nat.add_comm xs.length b.length, drop_length_add_append, append_assoc] at hmove
  have hput := writeMem_append a ((b ++ rest).take xs.length ++ (b ++ rest.drop xs.length)) xs
    (by rw [length_append]; omega)
  rw [drop_left' hgap] at hput
  exact ⟨_, hmove, hput⟩

theorem Holds.grow (h : Holds N v l) {k : Nat} (hk : l.length + k < 2 ^ 31)
    (hroom : ∀ mem, v.items N = some mem → l.length + k ≤ mem.length) :
    ∃ mem rest, v.items N = some mem ∧ mem = l.map some ++ rest ∧ k ≤ rest.length ∧
      (∀ mem', mem'.length = mem.length →
        ({ v.setItems mem' with _size := wrap (v._size + k) } : Prevector T).items N =
          some mem') ∧
      ∀ l' rest', l'.length = l.length + k → (l'.map some ++ rest').length = mem.length →
        Holds N { v.setItems (l'.map some ++ rest') with _size := wrap (v._size + k) } l' := by
  obtain ⟨mem, rest, hitems, rfl, -, hsize, -, hat, hput⟩ := h.facts
  have hwrap : wrap (v._size + k) = v._size + k := by
    have := h.size_le
    exact mod_eq_of_lt (by omega)
  have hlen := hroom _ hitems
  refine ⟨_, rest, hitems, rfl, ?_, fun mem' hmem' => ?_, fun l' rest' hl' hmem' => ?_⟩
  · rw [length_append, length_map] at hlen
    omega
  · exact hat _ (l.length + k) _ (by omega) hlen hmem'
  · exact hput _ l' rest' (by omega) hmem'

variable {xs : List T}

/-- Values from outside are written as they are. -/
theorem fillMem_values (moved : Bool) {cells m : List (Option T)} {pos : Nat}
    (h : pos + cells.length ≤ m.length) :
    fillMem moved (cells.map .value) pos m = writeMem m pos cells := by
  induction cells generalizing m pos with
  | nil =>
    rw [writeMem, if_pos h, List.append_nil]
    exact congrArg some (take_append_drop pos m).symm
  | cons cell cells ih =>
    rw [length_cons] at h
    have hwrite : writeMem m pos [cell] = some (m.take pos ++ [cell] ++ m.drop (pos + 1)) :=
      if_pos (by rw [length_singleton]; omega)
    have hpos : (m.take pos).length = pos := by rw [length_take]; omega
    simp only [map_cons, fillMem, Arg.read, bind_eq_bind, bind_some, hwrite]
    rw [ih (by rw [← length_writeMem hwrite] at h; omega), writeMem, writeMem,
      if_pos (by rw [length_writeMem hwrite]; omega), if_pos (by rw [length_cons]; omega)]
    have htake : (m.take pos ++ [cell] ++ m.drop (pos + 1)).take (pos + 1) = m.take pos ++ [cell] :=
      take_left' (by rw [length_append, hpos, length_singleton])
    have hdrop : (m.take pos ++ [cell] ++ m.drop (pos + 1)).drop (pos + 1 + cells.length) =
        m.drop (pos + (cells.length + 1)) := by
      rw [← drop_drop, drop_left' (by rw [length_append, hpos, length_singleton]), drop_drop]
      congr 1
      omega
    rw [htake, hdrop, append_assoc (m.take pos), singleton_append, length_cons]

theorem moves_ok (h : Holds N v l) (n : Nat) : ∃ moved, v.moves N n = some moved := by
  obtain ⟨mem, rest, -, -, hcap, -⟩ := h.facts
  exact ⟨_, by rw [moves, hcap]; rfl⟩

theorem fill_ok (h : Holds N v []) (hxs : xs.length < 2 ^ 31)
    (hroom : ∀ mem, v.items N = some mem → xs.length ≤ mem.length) (moved : Bool) :
    ∃ v', v.fill N moved ((xs.map some).map .value) = some v' ∧ Holds N v' xs := by
  obtain ⟨mem, _, hitems, rfl, hk, hat, hput⟩ := h.grow (k := xs.length)
    (by rwa [length_nil, Nat.zero_add]) (by rwa [length_nil, Nat.zero_add])
  have hwrite := writeMem_append [] mem (xs.map some) (by rwa [length_map])
  have hsame := hat _ rfl
  rw [length_map, nil_append, nil_append, length_nil] at hwrite
  rw [setItems_items hitems] at hsame
  refine ⟨_, ?_, hput xs _ (by simp) (length_writeMem hwrite)⟩
  have hcells : 0 + (xs.map some).length ≤ mem.length := by simpa using hk
  have hfill := (fillMem_values moved hcells).trans hwrite
  simp only [fill, length_map, bind_eq_bind, hsame, bind_some, hfill]
  rfl

variable (h : Holds N v l)

include h

theorem resize_ok (zero : T) {n : Nat} (hn : n < 2 ^ 31) :
    ∃ v', v.resize N zero n = some v' ∧
      Holds N v' (l.take n ++ replicate (n - l.length) zero) := by
  obtain ⟨-, -, -, -, -, hsize, -⟩ := h.facts
  simp only [resize, hsize]
  by_cases heq : l.length = n
  · subst heq
    rw [if_pos rfl, take_length, Nat.sub_self, List.replicate_zero, List.append_nil]
    exact ⟨v, rfl, h⟩
  · by_cases hgt : l.length > n
    · rw [if_neg heq, if_pos hgt, Nat.sub_eq_zero_of_le (Nat.le_of_lt hgt), List.replicate_zero]
      have herase := eraseRange_ok h (Nat.le_of_lt hgt) (Nat.le_refl _)
      rwa [drop_length] at herase
    · obtain ⟨k, rfl⟩ : ∃ k, n = l.length + k := ⟨n - l.length, by omega⟩
      obtain ⟨v', hens, hv', hroom⟩ := ensure_ok h (by omega) hn (Nat.le_refl _)
      obtain ⟨mem, rest, hitems, rfl, hk, -, hput⟩ := hv'.grow hn hroom
      have hwrite := writeMem_append (l.map some) rest (replicate k (some zero))
        (by simpa using hk)
      rw [length_map, ← append_assoc, ← map_replicate, ← map_append] at hwrite
      rw [if_neg heq, if_neg hgt, hens, take_of_length_le (by omega), Nat.add_sub_cancel_left]
      refine ⟨_, ?_, hput (l ++ replicate k zero) _ (by simp) (length_writeMem hwrite)⟩
      simp only [bind_eq_bind, bind_some, hitems, ← map_replicate, hwrite]
      rfl

theorem assign_ok (zero : T) (hxs : xs.length < 2 ^ 31) :
    ∃ v', v.assign N zero ((xs.map some).map .value) = some v' ∧ Holds N v' xs := by
  obtain ⟨v1, hclear, hv1⟩ := resize_ok h zero (n := 0) (by decide)
  rw [List.take_zero, Nat.zero_sub, List.replicate_zero, List.append_nil] at hv1
  obtain ⟨v2, hens, hv2, hroom⟩ := ensure_ok hv1 (Nat.two_pow_pos 31) hxs (Nat.le_refl _)
  obtain ⟨moved, hmoved⟩ := moves_ok hv1 xs.length
  obtain ⟨v', hfill, hv'⟩ := fill_ok hv2 hxs hroom moved
  refine ⟨v', ?_, hv'⟩
  simp only [assign, clear, hclear, length_map, hmoved, hens, bind_eq_bind, bind_some, hfill]

theorem insert_ok (again : Bool) {p : Nat} (hp : p ≤ l.length)
    (hxs : l.length + xs.length < 2 ^ 31) :
    ∃ v', v.insert N again p ((xs.map some).map .value) = some v' ∧
      Holds N v' (l.take p ++ (xs ++ l.drop p)) := by
  obtain ⟨-, -, -, -, -, hsize, -⟩ := h.facts
  have hwrap : wrap (l.length + xs.length) = l.length + xs.length :=
    mod_eq_of_lt (by omega)
  have hwrap' : wrap (l.length + xs.length + (l.length + xs.length) / 2) =
      l.length + xs.length + (l.length + xs.length) / 2 :=
    mod_eq_of_lt (by omega)
  obtain ⟨v', hens, hv', hroom⟩ :=
    ensure_ok h (by omega) hxs (le_add_right _ ((l.length + xs.length) / 2))
  obtain ⟨-, -, -, -, -, hsize', -⟩ := hv'.facts
  obtain ⟨mem, rest, hitems, hmem, hk, hat, hput⟩ := hv'.grow hxs hroom
  have hsplit : mem = (l.take p).map some ++ ((l.drop p).map some ++ rest) := by
    rw [hmem, ← append_assoc, ← map_append, take_append_drop]
  have hlen : ((l.take p).map some).length = p := by
    rw [length_map, length_take, Nat.min_eq_left hp]
  obtain ⟨m, hmove, hwrite⟩ := writeMem_splice ((l.take p).map some)
    ((l.drop p).map some) rest (xs.map some) (by simpa using hk)
  rw [← hsplit, hlen, length_map] at hmove
  rw [hlen, ← append_assoc, ← append_assoc, ← map_append, ← map_append,
    append_assoc] at hwrite
  have hread : readMem mem p (v'.size N - p) = some ((l.drop p).map some) := by
    rw [hsize', hmem, readMem, if_pos (by simp; omega), drop_append_of_le_length (by simpa),
      ← map_drop, take_left' (by simp)]
  refine ⟨_, ?_, hput (l.take p ++ (xs ++ l.drop p)) _ (by simp; omega)
    ((length_writeMem hwrite).trans (length_writeMem hmove))⟩
  obtain ⟨moved, hmoved⟩ := moves_ok h (l.length + xs.length)
  have hroom' : p + (xs.map some).length ≤ m.length := by
    rw [length_writeMem hmove, length_map]
    exact Nat.le_trans (Nat.add_le_add_right hp _) (hroom _ hitems)
  have hfill := (fillMem_values moved hroom').trans hwrite
  simp only [insert, hsize, length_map, hwrap, hwrap', hmoved, hens, bind_eq_bind,
    bind_some, hitems, hread, hmove, hat _ (length_writeMem hmove), ite_self, hfill,
    setItems_setItems]
  rfl

theorem pushBack_ok (x : T) (hl : l.length + 1 < 2 ^ 31) :
    ∃ v', v.pushBack N (.value (some x)) = some v' ∧ Holds N v' (l ++ [x]) := by
  obtain ⟨-, -, -, -, -, hsize, -⟩ := h.facts
  have hwrap : wrap (l.length + 1) = l.length + 1 := mod_eq_of_lt (by omega)
  have hwrap' : wrap (l.length + 1 + (l.length + 1) / 2) = l.length + 1 + (l.length + 1) / 2 :=
    mod_eq_of_lt (by omega)
  obtain ⟨v', hens, hv', hroom⟩ :=
    ensure_ok h (by omega) hl (le_add_right _ ((l.length + 1) / 2))
  obtain ⟨-, -, -, -, -, hsize', -⟩ := hv'.facts
  obtain ⟨mem, rest, hitems, rfl, hk, -, hput⟩ := hv'.grow hl hroom
  have hwrite := writeMem_append (l.map some) rest ([x].map some) hk
  rw [length_map, ← append_assoc, ← map_append] at hwrite
  refine ⟨_, ?_, hput (l ++ [x]) _ length_append (length_writeMem hwrite)⟩
  obtain ⟨moved, hmoved⟩ := moves_ok h (l.length + 1)
  have hroom' : l.length + ([x].map some).length ≤ (l.map some ++ rest).length := hroom _ hitems
  have hfill : fillMem moved [.value (some x)] l.length (l.map some ++ rest) = some _ :=
    (fillMem_values moved hroom').trans hwrite
  simp only [pushBack, hsize, hwrap, hwrap', hmoved, hens, bind_eq_bind, bind_some, hitems,
    hsize', hfill]
  rfl

theorem contents_ok : v.contents N = some (l.map some) := by
  obtain ⟨mem, rest, hitems, rfl, -, hsize, -⟩ := h.facts
  rw [contents, hitems, hsize]
  exact readMem_all

theorem copy_ok (hl : l.length < 2 ^ 31) : ∃ v', copy N v = some v' ∧ Holds N v' l := by
  obtain ⟨-, -, -, -, -, hsize, -⟩ := h.facts
  obtain ⟨v1, hcap, hv1, hroom⟩ := changeCapacity_ok holds_empty (Nat.two_pow_pos 31)
    (Nat.zero_le l.length) fun hN => Nat.lt_trans hN hl
  obtain ⟨v', hfill, hv'⟩ := fill_ok hv1 hl hroom false
  refine ⟨v', ?_, hv'⟩
  simp only [copy, hsize, hcap, bind_eq_bind, bind_some, contents_ok h, hfill]

theorem copyAssign_ok (zero : T) {other : Prevector T} {l' : List T} (h' : Holds N other l')
    (hl' : l'.length < 2 ^ 31) : ∃ v', v.copyAssign N zero other = some v' ∧ Holds N v' l' := by
  rw [copyAssign, contents_ok h']
  exact assign_ok h zero hl'

omit h

end

/-! ## Runs -/

/-- An operation on one vector; iterators are positions, and a range is what its iterators refer
    to. -/
inductive Op (T : Type) where
  | assign (n : Nat) (val : Arg T)
  | assignRange (range : List (Arg T))
  | resize (new_size : Nat)
  | reserve (new_capacity : Nat)
  | shrinkToFit
  | clear
  | insert (pos : Nat) (value : Arg T)
  | insertCount (pos count : Nat) (value : Arg T)
  | insertRange (pos : Nat) (range : List (Arg T))
  | erase (pos : Nat)
  | eraseRange (first last : Nat)
  | pushBack (value : Arg T)
  | popBack

section

variable {T : Type} (N : Nat) (zero : T)

def Op.run (v : Prevector T) : Op T → Option (Prevector T)
  | .assign n val => v.assign N zero (replicate n val.cell)
  | .assignRange range => v.assign N zero (range.map Arg.cell)
  | .resize new_size => v.resize N zero new_size
  | .reserve new_capacity => v.reserve N new_capacity
  | .shrinkToFit => v.shrinkToFit N
  | .clear => v.clear N zero
  | .insert pos value => v.insert N false pos [value.cell]
  | .insertCount pos nCount value => v.insert N true pos (replicate nCount value.cell)
  | .insertRange pos range => v.insert N false pos (range.map Arg.cell)
  | .erase pos => v.eraseRange N pos (pos + 1)
  | .eraseRange first last => v.eraseRange N first last
  | .pushBack value => v.pushBack N value.cell
  | .popBack => v.popBack N

/-- What an argument refers to before the operation. -/
def Arg.on (l : List T) : Arg T → T
  | .value val => val
  | .element i => l.getD i zero

/-- The same on a list. -/
def Op.onList (l : List T) : Op T → List T
  | .assign n val => replicate n (val.on zero l)
  | .assignRange range => range.map (Arg.on zero l)
  | .resize n => l.take n ++ replicate (n - l.length) zero
  | .reserve _ | .shrinkToFit => l
  | .clear => []
  | .insert pos value => l.insertIdx pos (value.on zero l)
  | .insertCount pos nCount value =>
    l.take pos ++ (replicate nCount (value.on zero l) ++ l.drop pos)
  | .insertRange pos range => l.take pos ++ (range.map (Arg.on zero l) ++ l.drop pos)
  | .erase pos => l.eraseIdx pos
  | .eraseRange first last => l.take first ++ l.drop last
  | .pushBack value => l ++ [value.on zero l]
  | .popBack => l.dropLast

def Op.args : Op T → List (Arg T)
  | .assign _ val => [val]
  | .assignRange range | .insertRange _ range => range
  | .insert _ value | .insertCount _ _ value | .pushBack value => [value]
  | _ => []

def Arg.valid (l : List T) : Arg T → Bool
  | .value _ => true
  | .element i => decide (i < l.length)

/-- The argument is outside of the vector. -/
def Arg.apart : Arg T → Bool
  | .value _ => true
  | .element _ => false

/-- Iterators are in range and sizes below `2^31`. -/
def Op.valid (l : List T) (op : Op T) : Bool :=
  (match op with
    | .reserve new_capacity => decide (new_capacity < 2 ^ 31)
    | .insert pos _ | .insertCount pos _ _ | .insertRange pos _ => decide (pos ≤ l.length)
    | .erase pos => decide (pos < l.length)
    | .eraseRange first last => decide (first ≤ last ∧ last ≤ l.length)
    | .popBack => decide (0 < l.length)
    | _ => true) && decide ((op.onList zero l).length < 2 ^ 31) && op.args.all (Arg.valid l)

/-- No argument refers to an element of the vector. -/
def Op.apart (op : Op T) : Bool := op.args.all Arg.apart

theorem exists_values {args : List (Arg T)} (h : args.all Arg.apart = true) :
    ∃ xs : List T, args = xs.map .value := by
  induction args with
  | nil => exact ⟨[], rfl⟩
  | cons arg args ih =>
    rw [all_cons, Bool.and_eq_true] at h
    obtain ⟨xs, rfl⟩ := ih h.2
    cases arg with
    | value val => exact ⟨val :: xs, rfl⟩
    | element i => nomatch h.1

theorem exists_value {arg : Arg T} (h : [arg].all Arg.apart = true) : ∃ x, arg = .value x := by
  obtain ⟨xs, hxs⟩ := exists_values h
  cases xs with
  | nil => cases hxs
  | cons x xs =>
    obtain ⟨rfl, -⟩ := cons.inj hxs
    exact ⟨x, rfl⟩

theorem map_value_on (l xs : List T) : (xs.map .value).map (Arg.on zero l) = xs := by
  rw [List.map_map]
  exact map_id xs

theorem map_value_cell (xs : List T) : (xs.map .value).map Arg.cell = (xs.map some).map .value := by
  rw [List.map_map, List.map_map]
  rfl

theorem insertIdx_eq_take_append {l : List T} {pos : Nat} (h : pos ≤ l.length) (value : T) :
    l.insertIdx pos value = l.take pos ++ ([value] ++ l.drop pos) := by
  induction pos generalizing l with
  | zero => rfl
  | succ pos ih =>
    cases l with
    | nil => cases h
    | cons x l => exact congrArg (x :: ·) (ih (le_of_succ_le_succ h))

theorem Op.run_ok {N : Nat} {zero : T} {v : Prevector T} {l : List T} (h : Holds N v l)
    (hl : l.length < 2 ^ 31) {op : Op T} (hop : op.valid zero l = true)
    (hapart : op.apart = true) :
    ∃ v', op.run N zero v = some v' ∧ Holds N v' (op.onList zero l) := by
  obtain ⟨hvalid, -⟩ := Bool.and_eq_true_iff.mp hop
  obtain ⟨hargs, hsize⟩ := Bool.and_eq_true_iff.mp hvalid
  replace hsize := of_decide_eq_true hsize
  have hlen : v.size N = l.length := by
    obtain ⟨-, -, -, -, -, hlen, -⟩ := h.facts
    exact hlen
  cases op with
  | assign n val =>
    obtain ⟨x, rfl⟩ := exists_value hapart
    have hassign := assign_ok h zero hsize
    rwa [onList, map_replicate, map_replicate] at hassign
  | assignRange range =>
    obtain ⟨xs, rfl⟩ := exists_values hapart
    rw [onList, map_value_on] at hsize ⊢
    rw [run, map_value_cell]
    exact assign_ok h zero hsize
  | resize new_size =>
    simp only [onList, length_append, length_take, length_replicate] at hsize
    exact resize_ok h zero (by omega)
  | reserve new_capacity =>
    obtain ⟨v', heq, hv', -⟩ := ensure_ok h hl (of_decide_eq_true hargs) (Nat.le_refl _)
    exact ⟨v', heq, hv'⟩
  | shrinkToFit =>
    obtain ⟨v', heq, hv', -⟩ := changeCapacity_ok h hl (Nat.le_refl _) fun hN =>
      Nat.lt_trans hN hl
    rw [← hlen] at heq
    exact ⟨v', heq, hv'⟩
  | clear =>
    have hclear := resize_ok h zero (Nat.two_pow_pos 31)
    rwa [List.take_zero, Nat.zero_sub, List.replicate_zero, List.append_nil] at hclear
  | insert pos value =>
    obtain ⟨x, rfl⟩ := exists_value hapart
    have hpos : pos ≤ l.length := of_decide_eq_true hargs
    rw [onList, length_insertIdx_of_le_length hpos] at hsize
    rw [onList, insertIdx_eq_take_append hpos]
    have hinsert : ∃ v', v.insert N false pos (([x].map some).map .value) = some v' ∧ _ :=
      insert_ok h false hpos hsize
    exact hinsert
  | insertCount pos count value =>
    obtain ⟨x, rfl⟩ := exists_value hapart
    have hpos : pos ≤ l.length := of_decide_eq_true hargs
    have hroom : l.length + (replicate count x).length < 2 ^ 31 := by
      simp only [onList, length_append, length_take, length_drop, length_replicate] at hsize ⊢
      omega
    have hinsert := insert_ok h true hpos hroom
    rwa [map_replicate, map_replicate] at hinsert
  | insertRange pos range =>
    obtain ⟨xs, rfl⟩ := exists_values hapart
    have hpos : pos ≤ l.length := of_decide_eq_true hargs
    rw [onList, map_value_on] at hsize ⊢
    rw [run, map_value_cell]
    refine insert_ok h false hpos ?_
    simp only [length_append, length_take, length_drop] at hsize
    omega
  | erase pos =>
    rw [onList, eraseIdx_eq_take_drop_succ]
    exact eraseRange_ok h (le_succ _) (of_decide_eq_true hargs)
  | eraseRange first last =>
    obtain ⟨hab, hb⟩ : first ≤ last ∧ last ≤ l.length := of_decide_eq_true hargs
    exact eraseRange_ok h hab hb
  | pushBack value =>
    obtain ⟨x, rfl⟩ := exists_value hapart
    rw [onList, length_append, length_singleton] at hsize
    exact pushBack_ok h x hsize
  | popBack =>
    have herase := eraseRange_ok h (sub_le _ 1) (Nat.le_refl _)
    rw [List.drop_length, List.append_nil, ← dropLast_eq_take, ← hlen] at herase
    exact herase

end

/-- A statement of a program over several vectors; a new variable takes the place of an old one. -/
inductive Cmd (T : Type) where
  | apply (i : Nat) (op : Op T)
  | construct (i : Nat)
  | copyConstruct (i other : Nat)
  | copyAssign (i other : Nat)
  | moveConstruct (i other : Nat)
  | moveAssign (i other : Nat)
  | swap (i other : Nat)

section

variable {T α : Type} (N : Nat) (zero : T)

def exchange (env : Nat → α) (i j : Nat) : Nat → α :=
  update (update env i (env j)) j (env i)

def Cmd.run (env : Nat → Prevector T) : Cmd T → Option (Nat → Prevector T)
  | .apply i op => do return update env i (← op.run N zero (env i))
  | .construct i => some (update env i (Prevector.empty T N))
  | .copyConstruct i other => do return update env i (← copy N (env other))
  | .copyAssign i other =>
    if i = other then some env
    else do return update env i (← (env i).copyAssign N zero (env other))
  | .moveConstruct i other => some (exchange (update env i (Prevector.empty T N)) i other)
  | .moveAssign i other | .swap i other => some (exchange env i other)

/-- The same on lists; what is moved from holds what was there. -/
def Cmd.onLists (env : Nat → List T) : Cmd T → Nat → List T
  | .apply i op => update env i (op.onList zero (env i))
  | .construct i => update env i []
  | .copyConstruct i other | .copyAssign i other => update env i (env other)
  | .moveConstruct i other => exchange (update env i []) i other
  | .moveAssign i other | .swap i other => exchange env i other

def Cmd.valid (env : Nat → List T) : Cmd T → Bool
  | .apply i op => op.valid zero (env i)
  | _ => true

def Cmd.apart : Cmd T → Bool
  | .apply _ op => op.apart
  | _ => true

def runAll : List (Cmd T) → (Nat → Prevector T) → Option (Nat → Prevector T)
  | [], env => some env
  | c :: cs, env => do runAll cs (← c.run N zero env)

def onListsAll (cs : List (Cmd T)) (env : Nat → List T) : Nat → List T :=
  cs.foldl (fun env c => c.onLists zero env) env

def allValid : List (Cmd T) → (Nat → List T) → Bool
  | [], _ => true
  | c :: cs, env => c.valid zero env && allValid cs (c.onLists zero env)

variable {env : Nat → Prevector T} {ls : Nat → List T}

theorem Cmd.run_ok {N : Nat} {zero : T} (h : ∀ i, Holds N (env i) (ls i) ∧ (ls i).length < 2 ^ 31)
    {c : Cmd T} (hc : c.valid zero ls = true) (hapart : c.apart = true) :
    ∃ env', c.run N zero env = some env' ∧
      ∀ i, Holds N (env' i) (c.onLists zero ls i) ∧ (c.onLists zero ls i).length < 2 ^ 31 := by
  have hupdate : ∀ {env : Nat → Prevector T} {ls : Nat → List T} {i v l},
      (∀ j, Holds N (env j) (ls j) ∧ (ls j).length < 2 ^ 31) →
      Holds N v l ∧ l.length < 2 ^ 31 → ∀ j, Holds N (update env i v j)
        (update ls i l j) ∧ (update ls i l j).length < 2 ^ 31 := by
    intro env ls i v l h hv j
    by_cases hj : j = i
    · subst hj
      rwa [update_self, update_self]
    · rw [update_of_ne hj, update_of_ne hj]
      exact h j
  have hempty := fun i =>
    hupdate (i := i) (v := empty T N) (l := []) h ⟨holds_empty, Nat.two_pow_pos 31⟩
  cases c with
  | apply i op =>
    obtain ⟨v, hrun, hv⟩ := Op.run_ok (h i).1 (h i).2 hc hapart
    have hsize := of_decide_eq_true
      (Bool.and_eq_true_iff.mp (Bool.and_eq_true_iff.mp hc).1).2
    rw [run, hrun]
    exact ⟨_, rfl, hupdate h ⟨hv, hsize⟩⟩
  | construct i => exact ⟨_, rfl, hempty i⟩
  | copyConstruct i other =>
    obtain ⟨v, hcopy, hv⟩ := copy_ok (h other).1 (h other).2
    rw [run, hcopy]
    exact ⟨_, rfl, hupdate h ⟨hv, (h other).2⟩⟩
  | copyAssign i other =>
    by_cases heq : i = other
    · subst heq
      rw [run, if_pos rfl, onLists, update_eq_self]
      exact ⟨env, rfl, h⟩
    · obtain ⟨v, hassign, hv⟩ := copyAssign_ok (h i).1 zero (h other).1 (h other).2
      rw [run, if_neg heq, hassign]
      exact ⟨_, rfl, hupdate h ⟨hv, (h other).2⟩⟩
  | moveConstruct i other =>
    exact ⟨_, rfl, hupdate (hupdate (hempty i) (hempty i other)) (hempty i i)⟩
  | moveAssign i other => exact ⟨_, rfl, hupdate (hupdate h (h other)) (h i)⟩
  | swap i other => exact ⟨_, rfl, hupdate (hupdate h (h other)) (h i)⟩

theorem runAll_ok {N : Nat} {zero : T} (h : ∀ i, Holds N (env i) (ls i) ∧ (ls i).length < 2 ^ 31)
    {cs : List (Cmd T)} (hcs : allValid zero cs ls = true) (hapart : ∀ c ∈ cs, c.apart = true) :
    ∃ env', runAll N zero cs env = some env' ∧
      ∀ i, Holds N (env' i) (onListsAll zero cs ls i) := by
  induction cs generalizing env ls with
  | nil => exact ⟨env, rfl, fun i => (h i).1⟩
  | cons c cs ih =>
    obtain ⟨hc, hcs⟩ := Bool.and_eq_true_iff.mp hcs
    obtain ⟨hapart, haparts⟩ := forall_mem_cons.mp hapart
    obtain ⟨env1, hrun, h1⟩ := Cmd.run_ok h hc hapart
    obtain ⟨env', hruns, h'⟩ := ih h1 hcs haparts
    refine ⟨env', ?_, h'⟩
    rw [runAll, hrun]
    exact hruns

/-- No run in range whose arguments are apart from the vectors touches memory that is not there;
    each vector has the elements of its list, room for them, and the size that says where they
    are. -/
theorem prevector_spec (cs : List (Cmd T)) (h : allValid zero cs (fun _ => []) = true)
    (hapart : ∀ c ∈ cs, c.apart = true) :
    ∃ env, runAll N zero cs (fun _ => empty T N) = some env ∧ ∀ i,
      let l := onListsAll zero cs (fun _ => []) i
      (env i).contents N = some (l.map some) ∧ (env i).size N = l.length ∧
      (∃ capacity, (env i).capacity N = some capacity ∧ (env i).size N ≤ capacity) ∧
      match (env i)._union with
      | .direct mem => (env i)._size = l.length ∧ l.length ≤ N ∧ mem.length = N
      | .indirect capacity mem => (env i)._size = l.length + (N + 1) ∧ mem.length = capacity := by
  obtain ⟨env, hrun, hholds⟩ := runAll_ok (N := N)
    (fun _ => ⟨holds_empty, Nat.two_pow_pos 31⟩) h hapart
  refine ⟨env, hrun, fun i => ?_⟩
  have hv := hholds i
  obtain ⟨mem, -, hitems, -, hcapacity, hsize, -⟩ := hv.facts
  refine ⟨contents_ok hv, hsize, ⟨_, hcapacity, ?_⟩, ?_⟩
  · rw [hsize]
    exact hv.le_capacity hitems
  · rw [Holds] at hv
    split at hv
    next m hm =>
      obtain ⟨hs, hlen, rest, rfl⟩ := hv
      refine ⟨hs, ?_, hlen⟩
      rw [← hlen, length_append, length_map]
      exact le_add_right _ _
    next capacity m hm => exact ⟨hv.2.1, hv.2.2.1⟩

/-- A vector of two that grows, is copied, moved from, cut and put back in place. -/
theorem prevector_spec_sample :
    ∃ env, runAll 2 0 [.apply 0 (.assign 2 (.value 7)), .apply 0 (.insert 1 (.value 8)),
      .copyConstruct 1 0, .apply 1 (.eraseRange 0 2), .apply 1 .shrinkToFit, .moveAssign 2 1]
      (fun _ => empty Nat 2) = some env ∧ (env 0)._size = 6 ∧ (env 2)._size = 1 := by
  obtain ⟨env, hrun, hall⟩ := prevector_spec 2 0 [.apply 0 (.assign 2 (.value 7)),
    .apply 0 (.insert 1 (.value 8)), .copyConstruct 1 0, .apply 1 (.eraseRange 0 2),
    .apply 1 .shrinkToFit, .moveAssign 2 1] (by decide) (by decide)
  refine ⟨env, hrun, ?_⟩
  cases hrun
  exact ⟨rfl, rfl⟩

/-- `v.insert(v.begin(), v[1])` with `v = [1, 2, 3]`: when `v[1]` is read, the elements have moved
    and `1` is there. -/
theorem insert_own_element :
    let cs : List (Cmd Nat) := [.apply 0 (.assignRange [.value 1, .value 2, .value 3]),
      .apply 0 (.insert 0 (.element 1))]
    allValid 0 cs (fun _ => []) = true ∧
    (∃ env, runAll 8 0 cs (fun _ => empty Nat 8) = some env ∧
      (env 0).contents 8 = some ([1, 1, 2, 3].map some)) ∧
    onListsAll 0 cs (fun _ => []) 0 = [2, 1, 2, 3] :=
  ⟨by decide, ⟨_, rfl, rfl⟩, rfl⟩

end

end Prevector

end Rcoin
