import Mathlib.Data.List.Chain
import Mathlib.Data.List.Nodup
import Mathlib.Logic.Function.Basic

/-!
# Queues and a free list threaded through one field

`Path next h l e`: following `next` from `h` one meets the nodes of `l` and then arrives at `e`.  A traversal that ends
in a node `null` outside `l` determines `l` and meets no node twice.

`Threads` describes a pool of nodes in which one `next` field threads a queue for every key `k` and a free list, all
disjoint.  `Mirrored` says that the back link of every node but the first one of its queue is right; what the first
one has as its predecessor is left open.  Unlinking a node, appending one, and moving the first node of a queue to the
free list keep both.
-/

namespace Links

variable {ν κ : Type}

/-- Following `next` from the first node one meets the nodes of the list and then the last argument. -/
def Path (next : ν → ν) : ν → List ν → ν → Prop
  | h, [], e => h = e
  | h, i :: l, e => h = i ∧ Path next (next i) l e

/-! ### Paths -/

section Path

variable {next next' : ν → ν} {h e i a : ν} {l l₁ l₂ : List ν}

@[simp] theorem path_nil : Path next h [] e ↔ h = e := Iff.rfl

@[simp] theorem path_cons : Path next h (i :: l) e ↔ h = i ∧ Path next (next i) l e := Iff.rfl

theorem Path.congr (hp : Path next h l e) (hn : ∀ j ∈ l, next' j = next j) : Path next' h l e := by
  induction l generalizing h with
  | nil => exact hp
  | cons i l ih =>
    obtain ⟨rfl, hp⟩ := hp
    refine ⟨rfl, ?_⟩
    rw [hn h List.mem_cons_self]
    exact ih hp fun j hj => hn j (List.mem_cons_of_mem _ hj)

theorem path_append : Path next h (l₁ ++ l₂) e ↔ ∃ m, Path next h l₁ m ∧ Path next m l₂ e := by
  induction l₁ generalizing h with
  | nil => simp
  | cons i l₁ ih => simp [ih, and_assoc]

theorem path_snoc : Path next h (l ++ [i]) e ↔ Path next h l i ∧ next i = e := by
  rw [path_append]
  constructor
  · rintro ⟨m, hp, rfl, he⟩
    exact ⟨hp, he⟩
  · rintro ⟨hp, he⟩
    exact ⟨i, hp, rfl, he⟩

/-- A path that returns to its end is empty. -/
theorem Path.eq_nil (hp : Path next e l e) (he : e ∉ l) : l = [] := by
  cases l with
  | nil => rfl
  | cons i l => exact absurd (hp.1 ▸ List.mem_cons_self) he

theorem Path.head_eq_iff (hp : Path next h l e) (he : e ∉ l) : h = e ↔ l = [] := by
  constructor
  · rintro rfl
    exact hp.eq_nil he
  · rintro rfl
    exact hp

/-- The nodes between two points are determined by the links. -/
theorem Path.unique (hp : Path next h l₁ e) (hp' : Path next h l₂ e) (he : e ∉ l₁) (he' : e ∉ l₂) : l₁ = l₂ := by
  induction l₁ generalizing h l₂ with
  | nil =>
    obtain rfl := hp
    exact (hp'.eq_nil he').symm
  | cons i l₁ ih =>
    cases l₂ with
    | nil =>
      obtain rfl := hp'
      exact absurd (hp.1 ▸ List.mem_cons_self) he
    | cons j l₂ =>
      obtain ⟨rfl, hp⟩ := hp
      obtain ⟨rfl, hp'⟩ := hp'
      rw [ih hp hp' (fun hm => he (List.mem_cons_of_mem _ hm)) fun hm => he' (List.mem_cons_of_mem _ hm)]

/-- A path meets no node twice before its end. -/
theorem Path.nodup (hp : Path next h l e) (he : e ∉ l) : l.Nodup := by
  induction l generalizing h with
  | nil => exact List.nodup_nil
  | cons i l ih =>
    obtain ⟨rfl, hp⟩ := hp
    have he' : e ∉ l := fun hm => he (List.mem_cons_of_mem _ hm)
    refine List.nodup_cons.2 ⟨fun hm => ?_, ih hp he'⟩
    -- met again, the node would be followed by the whole list once more
    obtain ⟨l₁, l₂, rfl⟩ := List.append_of_mem hm
    obtain ⟨m, _, rfl, hp₂⟩ := path_append.1 hp
    have heq := hp.unique hp₂ he' fun hm => he' (List.mem_append_right _ (List.mem_cons_of_mem _ hm))
    have hlen := congrArg List.length heq
    simp only [List.length_append, List.length_cons] at hlen
    omega

/-- The last node of a path leads to its end. -/
theorem Path.getLast (hp : Path next h l e) (ha : l.getLast? = some a) : next a = e := by
  obtain ⟨l₀, rfl⟩ := List.getLast?_eq_some_iff.1 ha
  exact (path_snoc.1 hp).2

/-- The nodes that one meets on the way from `h` to `null`, at most `fuel` of them. -/
def walk [DecidableEq ν] (null : ν) (next : ν → ν) : Nat → ν → List ν
  | 0, _ => []
  | fuel + 1, h => if h = null then [] else h :: walk null next fuel (next h)

theorem Path.walk_eq [DecidableEq ν] {fuel : Nat} (hp : Path next h l e) (he : e ∉ l) (hlen : l.length ≤ fuel) :
    walk e next fuel h = l := by
  induction l generalizing h fuel with
  | nil =>
    obtain rfl := hp
    cases fuel with
    | zero => rfl
    | succ fuel => exact if_pos rfl
  | cons i l ih =>
    obtain ⟨rfl, hp⟩ := hp
    obtain ⟨fuel, rfl⟩ : ∃ k, fuel = k + 1 := ⟨fuel - 1, by rw [List.length_cons] at hlen; omega⟩
    have hne : h ≠ e := fun e' => he (e' ▸ List.mem_cons_self)
    rw [walk, if_neg hne, ih hp (fun hm => he (List.mem_cons_of_mem _ hm)) (by rw [List.length_cons] at hlen; omega)]

/-- Passing over a node of a path: its predecessor, if there is one, takes its link. -/
theorem Path.bypass {h' : ν} [DecidableEq ν] (hp : Path next h (l₁ ++ i :: l₂) e) (hnd : (l₁ ++ i :: l₂).Nodup)
    (hsame : ∀ j ∈ l₁ ++ l₂, l₁.getLast? ≠ some j → next' j = next j)
    (hlast : ∀ a, l₁.getLast? = some a → next' a = next i) (hh : h' = if h = i then next i else h) :
    Path next' h' (l₁ ++ l₂) e := by
  obtain ⟨m, hp₁, rfl, hp₂⟩ := path_append.1 hp
  rcases List.eq_nil_or_concat l₁ with rfl | ⟨l₀, a, rfl⟩
  · obtain rfl := hp₁
    rw [hh, if_pos rfl]
    exact hp₂.congr fun j hj => hsame j hj (by simp)
  · rw [List.concat_eq_append] at *
    obtain ⟨hp₀, ha⟩ := path_snoc.1 hp₁
    have hlast' : (l₀ ++ [a]).getLast? = some a := List.getLast?_concat
    have hdisj := List.nodup_append.1 hnd
    have hne : h ≠ m := by
      have hmem : h ∈ l₀ ++ [a] := by
        cases l₀ with
        | nil => rw [hp₀]; exact List.mem_cons_self
        | cons j l₀ => rw [hp₀.1]; exact List.mem_cons_self
      exact hdisj.2.2 h hmem m List.mem_cons_self
    rw [hh, if_neg hne]
    refine path_append.2 ⟨next m, path_snoc.2 ⟨hp₀.congr fun j hj => ?_, hlast a hlast'⟩, hp₂.congr fun j hj => ?_⟩
    · refine hsame j (by simp [hj]) fun e => ?_
      rw [hlast', Option.some.injEq] at e
      subst e
      exact (List.nodup_append.1 hdisj.1).2.2 a hj a (by simp) rfl
    · refine hsame j (by simp [hj]) fun e => ?_
      rw [hlast', Option.some.injEq] at e
      subst e
      exact hdisj.2.2 a (by simp) a (List.mem_cons_of_mem _ hj) rfl

/-- Extending a path by a node behind its last one. -/
theorem Path.extend {h' : ν} (hp : Path next h l e) (hnd : l.Nodup) (hi : i ∉ l)
    (hsame : ∀ j ∈ l, l.getLast? ≠ some j → next' j = next j) (hlast : ∀ a, l.getLast? = some a → next' a = i)
    (hend : next' i = e) (hh : h' = if l = [] then i else h) : Path next' h' (l ++ [i]) e := by
  rcases List.eq_nil_or_concat l with rfl | ⟨l₀, a, rfl⟩
  · exact ⟨by simpa using hh, hend⟩
  · rw [List.concat_eq_append] at *
    obtain ⟨hp₀, _⟩ := path_snoc.1 hp
    have hlast' : (l₀ ++ [a]).getLast? = some a := List.getLast?_concat
    rw [if_neg (by simp)] at hh
    subst hh
    refine path_snoc.2 ⟨path_snoc.2 ⟨hp₀.congr fun j hj => ?_, hlast a hlast'⟩, hend⟩
    refine hsame j (by simp [hj]) fun e => ?_
    rw [hlast', Option.some.injEq] at e
    subst e
    exact (List.nodup_append.1 hnd).2.2 a hj a (by simp) rfl

end Path

/-! ### Queues and the free list -/

/-- One `next` field threads the queues `Q` and the free list `F`, which are disjoint; `tail` names the last node of
every queue that is not empty. -/
structure Threads (null : ν) (next : ν → ν) (head tail : κ → ν) (free : ν) (Q : κ → List ν) (F : List ν) : Prop where
  queue : ∀ k, Path next (head k) (Q k) null
  freeList : Path next free F null
  tail : ∀ k a, (Q k).getLast? = some a → tail k = a
  null_queue : ∀ k, null ∉ Q k
  null_free : null ∉ F
  apart : ∀ k k' i, i ∈ Q k → i ∈ Q k' → k = k'
  free_apart : ∀ k i, i ∈ F → i ∉ Q k

/-- Every node of a queue but the first one has its predecessor as its back link. -/
def Mirrored (prev : ν → ν) (Q : κ → List ν) : Prop := ∀ k, (Q k).IsChain fun a b => prev b = a

/-- The first node of every queue has no predecessor. -/
def Fronts (null : ν) (prev : ν → ν) (Q : κ → List ν) : Prop := ∀ k i l, Q k = i :: l → prev i = null

section Threads

variable {null free free' i : ν} {next next' prev prev' : ν → ν} {head head' tail tail' : κ → ν} {Q : κ → List ν}
  {F F' l l₁ l₂ : List ν} {k : κ}

theorem Threads.nodup (h : Threads null next head tail free Q F) (k : κ) : (Q k).Nodup :=
  (h.queue k).nodup (h.null_queue k)

theorem Threads.free_nodup (h : Threads null next head tail free Q F) : F.Nodup := h.freeList.nodup h.null_free

theorem Threads.head_eq_null (h : Threads null next head tail free Q F) (k : κ) : head k = null ↔ Q k = [] :=
  (h.queue k).head_eq_iff (h.null_queue k)

theorem Threads.free_eq_null (h : Threads null next head tail free Q F) : free = null ↔ F = [] :=
  h.freeList.head_eq_iff h.null_free

/-- The first node of a queue, and what follows it. -/
theorem Threads.of_cons (h : Threads null next head tail free Q F) (hk : Q k = i :: l) :
    head k = i ∧ i ≠ null ∧ i ∉ l ∧ Path next (next i) l null := by
  have hp := h.queue k
  have hnull := h.null_queue k
  have hnd := h.nodup k
  rw [hk] at hp hnull hnd
  exact ⟨hp.1, fun e => hnull (e ▸ List.mem_cons_self), (List.nodup_cons.1 hnd).1, hp.2⟩

theorem Threads.tail_mem (h : Threads null next head tail free Q F) (hk : Q k ≠ []) : tail k ∈ Q k := by
  have ha := List.getLast?_eq_some_getLast hk
  rw [h.tail k _ ha]
  exact List.getLast_mem hk

/-- The links determine the queues and the free list. -/
theorem Threads.unique {Q' : κ → List ν} (h : Threads null next head tail free Q F)
    (h' : Threads null next head tail free Q' F') : Q = Q' ∧ F = F' :=
  ⟨funext fun k => (h.queue k).unique (h'.queue k) (h.null_queue k) (h'.null_queue k),
    h.freeList.unique h'.freeList h.null_free h'.null_free⟩

/-- The predecessor of a node that is not the first one. -/
theorem Mirrored.prev_eq (hm : Mirrored prev Q) (hk : Q k = l₁ ++ i :: l₂) {a : ν} (ha : l₁.getLast? = some a) :
    prev i = a := by
  have hc := hm k
  rw [hk, List.isChain_append] at hc
  exact hc.2.2 a ha i rfl

/-- The first free node is taken. -/
theorem Threads.take (h : Threads null next head tail free Q (i :: F)) :
    free = i ∧ i ≠ null ∧ (∀ k, i ∉ Q k) ∧ i ∉ F ∧ Threads null next head tail (next i) Q F := by
  obtain ⟨rfl, hp⟩ := h.freeList
  refine ⟨rfl, fun e => h.null_free (e ▸ List.mem_cons_self), fun k => h.free_apart k _ List.mem_cons_self,
    (List.nodup_cons.1 h.free_nodup).1, ?_⟩
  exact { h with
    freeList := hp
    null_free := fun hm => h.null_free (List.mem_cons_of_mem _ hm)
    free_apart := fun k j hj => h.free_apart k j (List.mem_cons_of_mem _ hj) }

/-- The links of nodes outside the queues and the free list do not matter. -/
theorem Threads.congr (h : Threads null next head tail free Q F) (hQ : ∀ k, ∀ j ∈ Q k, next' j = next j)
    (hF : ∀ j ∈ F, next' j = next j) : Threads null next' head tail free Q F :=
  { h with
    queue := fun k => (h.queue k).congr (hQ k)
    freeList := h.freeList.congr hF }

/-- A node that is nowhere else becomes the first free one. -/
theorem Threads.release (h : Threads null next head tail free Q F) (hi : i ≠ null)
    (hQ : ∀ k, i ∉ Q k) (hF : i ∉ F) (hnext : ∀ j, j ≠ i → next' j = next j) (hfree : next' i = free) :
    Threads null next' head tail i Q (i :: F) where
  queue k := (h.queue k).congr fun j hj => hnext j fun e : j = i => hQ k (e ▸ hj)
  freeList := ⟨rfl, hfree ▸ h.freeList.congr fun j hj => hnext j fun e : j = i => hF (e ▸ hj)⟩
  tail := h.tail
  null_queue := h.null_queue
  null_free hm := (List.mem_cons.1 hm).elim (fun e => hi e.symm) h.null_free
  apart := h.apart
  free_apart k j hj := (List.mem_cons.1 hj).elim (fun e => e ▸ hQ k) (h.free_apart k j)

private theorem chain_congr (h : l.IsChain fun a b => prev b = a) (hl : ∀ j ∈ l, prev' j = prev j) :
    l.IsChain fun a b => prev' b = a :=
  h.imp_of_mem_imp fun _ b _ hb hab => (hl b hb).trans hab

theorem Mirrored.congr (hm : Mirrored prev Q) (hQ : ∀ k, ∀ j ∈ Q k, prev' j = prev j) : Mirrored prev' Q :=
  fun k => chain_congr (hm k) (hQ k)

theorem fronts_congr (hQ : ∀ k, ∀ j ∈ Q k, prev' j = prev j) : Fronts null prev' Q ↔ Fronts null prev Q := by
  have hkeep : ∀ k i l, Q k = i :: l → prev' i = prev i :=
    fun k i l hk => hQ k i (by rw [hk]; exact List.mem_cons_self)
  constructor
  · intro hf k i l hk
    rw [← hkeep k i l hk]
    exact hf k i l hk
  · intro hf k i l hk
    rw [hkeep k i l hk]
    exact hf k i l hk

/-- What unlinking writes to the `next` field: the predecessor of the node, if it has one, takes its link.  If the
node is the first one of its queue, its back link must not lead to a node that this changes. -/
private theorem next_unlink [DecidableEq ν] {p : ν} (h : Threads null next head tail free Q F) (hk : Q k = l₁ ++ i :: l₂)
    (hpred : ∀ a, l₁.getLast? = some a → p = a) (hfirst : l₁ = [] → p ≠ null → next (p) = next i)
    (hnext : ∀ j, next' j = if p ≠ null ∧ j = p then next i else next j) (j : ν) :
    next' j = if l₁.getLast? = some j then next i else next j := by
  rw [hnext]
  rcases List.eq_nil_or_concat l₁ with rfl | ⟨l₀, a, rfl⟩
  · simp only [List.getLast?_nil, reduceCtorEq, if_false]
    split
    · rename_i e
      obtain ⟨hne, rfl⟩ := e
      exact (hfirst rfl hne).symm
    · rfl
  · rw [List.concat_eq_append] at *
    have hlast : (l₀ ++ [a]).getLast? = some a := List.getLast?_concat
    have hp : p = a := hpred a hlast
    have hne : a ≠ null := by
      rintro rfl
      exact h.null_queue k (by rw [hk]; simp)
    simp only [hp, hlast, Option.some.injEq]
    by_cases hj : j = a
    · rw [if_pos ⟨hne, hj⟩, if_pos hj.symm]
    · rw [if_neg fun e => hj e.2, if_neg fun e : a = j => hj e.symm]

section Update

variable [DecidableEq κ]

/-- One queue and the free list are replaced; the other queues keep their nodes and their links. -/
private theorem Threads.update (h : Threads null next head tail free Q F)
    (hkeep : ∀ k', k' ≠ k → head' k' = head k' ∧ tail' k' = tail k' ∧ ∀ j ∈ Q k', next' j = next j)
    (hpath : Path next' (head' k) l null) (htail : ∀ a, l.getLast? = some a → tail' k = a) (hnull : null ∉ l)
    (hnew : ∀ j ∈ l, ∀ k', k' ≠ k → j ∉ Q k') (hfree : Path next' free' F' null) (hnullF : null ∉ F')
    (hapart : ∀ j ∈ F', j ∉ l ∧ ∀ k', k' ≠ k → j ∉ Q k') :
    Threads null next' head' tail' free' (Function.update Q k l) F' := by
  refine ⟨fun k' => ?_, hfree, fun k' a ha => ?_, fun k' => ?_, hnullF, fun k₁ k₂ j h₁ h₂ => ?_, fun k' j hj => ?_⟩
  · rcases eq_or_ne k' k with rfl | hne
    · rwa [Function.update_self]
    · rw [Function.update_of_ne hne, (hkeep k' hne).1]
      exact (h.queue k').congr (hkeep k' hne).2.2
  · rcases eq_or_ne k' k with rfl | hne
    · rw [Function.update_self] at ha
      exact htail a ha
    · rw [Function.update_of_ne hne] at ha
      exact (hkeep k' hne).2.1.trans (h.tail k' a ha)
  · rcases eq_or_ne k' k with rfl | hne
    · rwa [Function.update_self]
    · rw [Function.update_of_ne hne]
      exact h.null_queue k'
  · rcases eq_or_ne k₁ k with rfl | hne₁ <;> rcases eq_or_ne k₂ k₁ with rfl | hne₂
    · rfl
    · rw [Function.update_self] at h₁
      rw [Function.update_of_ne hne₂] at h₂
      exact absurd h₂ (hnew j h₁ k₂ hne₂)
    · rfl
    · rw [Function.update_of_ne hne₁] at h₁
      rcases eq_or_ne k₂ k with rfl | hne
      · rw [Function.update_self] at h₂
        exact absurd h₁ (hnew j h₂ k₁ hne₁)
      · rw [Function.update_of_ne hne] at h₂
        exact h.apart k₁ k₂ j h₁ h₂
  · rcases eq_or_ne k' k with rfl | hne
    · rw [Function.update_self]
      exact (hapart j hj).1
    · rw [Function.update_of_ne hne]
      exact (hapart j hj).2 k' hne

private theorem Mirrored.update (hm : Mirrored prev Q) (hkeep : ∀ k', k' ≠ k → ∀ j ∈ Q k', prev' j = prev j)
    (hl : l.IsChain fun a b => prev' b = a) : Mirrored prev' (Function.update Q k l) := by
  intro k'
  rcases eq_or_ne k' k with rfl | hne
  · rwa [Function.update_self]
  · rw [Function.update_of_ne hne]
    exact chain_congr (hm k') (hkeep k' hne)

/-- The first node of a queue becomes the first free one. -/
theorem Threads.pop [DecidableEq ν] (h : Threads null next head tail free Q F) (hk : Q k = i :: l)
    (hnext : ∀ j, next' j = if j = i then free else next j)
    (hhead : ∀ k', head' k' = if k' = k then next i else head k')
    (htail : ∀ k', tail' k' = if k' = k then if next i = null then null else tail k else tail k') :
    Threads null next' head' tail' i (Function.update Q k l) (i :: F) := by
  obtain ⟨_, hnull, hnot, hp⟩ := h.of_cons hk
  have hi : i ∈ Q k := hk ▸ List.mem_cons_self
  have hsub : ∀ j ∈ l, j ∈ Q k := fun j hj => hk ▸ List.mem_cons_of_mem _ hj
  have hiF : i ∉ F := fun hF => h.free_apart k i hF hi
  refine h.update (fun k' hne => ⟨?_, ?_, fun j hj => ?_⟩) ?_ (fun a ha => ?_) (fun hm => h.null_queue k (hsub _ hm))
    (fun j hj k' hne hj' => hne (h.apart k' k j hj' (hsub j hj))) ⟨rfl, ?_⟩ ?_ (fun j hj => ⟨?_, fun k' hne hj' => ?_⟩)
  · rw [hhead, if_neg hne]
  · rw [htail, if_neg hne]
  · have hji : j ≠ i := fun e => hne (h.apart k' k i (e ▸ hj) hi)
    rw [hnext, if_neg hji]
  · rw [hhead, if_pos rfl]
    exact hp.congr fun j hj => by rw [hnext, if_neg fun e : j = i => hnot (e ▸ hj)]
  · have hne : next i ≠ null := by
      intro e
      rw [(hp.head_eq_iff fun hm => h.null_queue k (hsub _ hm)).1 e] at ha
      cases ha
    rw [htail, if_pos rfl, if_neg hne]
    refine h.tail k a ?_
    rw [hk, List.getLast?_cons, ha]
    rfl
  · rw [hnext, if_pos rfl]
    exact h.freeList.congr fun j hj => by rw [hnext, if_neg fun e : j = i => hiF (e ▸ hj)]
  · exact fun hm => (List.mem_cons.1 hm).elim (fun e => hnull e.symm) h.null_free
  · rcases List.mem_cons.1 hj with rfl | hF
    · exact hnot
    · exact fun hl => h.free_apart k j hF (hsub j hl)
  · rcases List.mem_cons.1 hj with rfl | hF
    · exact hne (h.apart k' k j hj' hi)
    · exact h.free_apart k' j hF hj'

theorem Mirrored.pop (hm : Mirrored prev Q) (hk : Q k = i :: l) : Mirrored prev (Function.update Q k l) := by
  refine hm.update (fun _ _ _ _ => rfl) ?_
  have hc := hm k
  rw [hk] at hc
  exact hc.tail

variable [DecidableEq ν]

/-- A node leaves its queue, if its own back link `p` is right. -/
theorem Threads.unlink {p : ν} (h : Threads null next head tail free Q F) (hk : Q k = l₁ ++ i :: l₂)
    (hpred : ∀ a, l₁.getLast? = some a → p = a) (hfirst : l₁ = [] → p ≠ null → next (p) = next i)
    (hnext : ∀ j, next' j = if p ≠ null ∧ j = p then next i else next j)
    (hhead : ∀ k', head' k' = if k' = k then if head k = i then next i else head k else head k')
    (htail : ∀ k', tail' k' = if k' = k then if tail k = i then p else tail k else tail k') :
    Threads null next' head' tail' free (Function.update Q k (l₁ ++ l₂)) F := by
  have hwrite := next_unlink h hk hpred hfirst hnext
  have hnd := h.nodup k
  have hp := h.queue k
  rw [hk] at hnd hp
  have hsub : ∀ j ∈ l₁ ++ l₂, j ∈ Q k := by
    intro j hj
    rw [hk]
    exact (List.mem_append.1 hj).elim (List.mem_append_left _)
      fun hj => List.mem_append_right _ (List.mem_cons_of_mem _ hj)
  have hother : ∀ j, j ∉ Q k → next' j = next j := by
    intro j hj
    rw [hwrite, if_neg]
    exact fun e => hj (hsub j (List.mem_append_left _ (List.mem_of_getLast? e)))
  refine h.update (fun k' hne => ⟨?_, ?_, fun j hj => hother j fun hj' => hne (h.apart k' k j hj hj')⟩) ?_
    (fun a ha => ?_) (fun hmem => h.null_queue k (hsub _ hmem))
    (fun j hj k' hne hj' => hne (h.apart k' k j hj' (hsub j hj)))
    (h.freeList.congr fun j hj => hother j (h.free_apart k j hj)) h.null_free
    fun j hj => ⟨fun hj' => h.free_apart k j hj (hsub j hj'), fun k' _ => h.free_apart k' j hj⟩
  · rw [hhead, if_neg hne]
  · rw [htail, if_neg hne]
  · refine hp.bypass hnd (fun j _ hj => ?_) (fun a ha => ?_) (by rw [hhead, if_pos rfl])
    · rw [hwrite, if_neg hj]
    · rw [hwrite, if_pos ha]
  · rw [htail, if_pos rfl]
    rcases List.eq_nil_or_concat l₂ with rfl | ⟨l₃, c, rfl⟩
    · have hi : tail k = i := h.tail k i (by rw [hk, List.getLast?_concat])
      rw [List.append_nil] at ha
      rw [if_pos hi, hpred a ha]
    · rw [List.concat_eq_append] at *
      have hc : tail k = c := h.tail k c (by
        rw [hk, ← List.cons_append, ← List.append_assoc, List.getLast?_concat])
      rw [← List.append_assoc, List.getLast?_concat, Option.some.injEq] at ha
      have hci : c ≠ i := by
        rintro rfl
        exact (List.nodup_cons.1 (List.nodup_append.1 hnd).2.1).1 (by simp)
      rw [hc, if_neg hci, ha]

theorem Mirrored.unlink (hm : Mirrored prev Q) (h : Threads null next head tail free Q F)
    (hk : Q k = l₁ ++ i :: l₂)
    (hprev : ∀ j, prev' j = if next i ≠ null ∧ j = next i then prev i else prev j) :
    Mirrored prev' (Function.update Q k (l₁ ++ l₂)) := by
  have hp := h.queue k
  have hc := hm k
  have hnd := h.nodup k
  have hnull := h.null_queue k
  rw [hk] at hp hc hnd hnull
  obtain ⟨_, _, _, hp₂⟩ := path_append.1 hp
  obtain ⟨hc₁, hc₂, _⟩ := List.isChain_append.1 hc
  cases l₂ with
  | nil =>
    -- the node was the last one
    have hkeep : ∀ j, prev' j = prev j := fun j => by
      rw [hprev, if_neg fun e : next i ≠ null ∧ j = next i => e.1 hp₂]
    refine hm.update (fun _ _ j _ => hkeep j) ?_
    rw [List.append_nil]
    exact chain_congr hc₁ fun j _ => hkeep j
  | cons c l₂ =>
    have hci : next i = c := hp₂.1
    have hkeep : ∀ j, j ≠ c → prev' j = prev j := fun j hj => by
      rw [hprev, if_neg fun e : next i ≠ null ∧ j = next i => hj (e.2.trans hci)]
    have hcnull : c ≠ null := fun e => hnull (by rw [e]; simp)
    have hc' : prev' c = prev i := by rw [hprev, if_pos ⟨fun e => hcnull (hci.symm.trans e), hci.symm⟩]
    obtain ⟨hnd₁, hnd₂, hdisj⟩ := List.nodup_append.1 hnd
    have hmem : c ∈ Q k := by rw [hk]; simp
    refine hm.update (fun k' hne j hj => hkeep j fun e => hne (h.apart k' k c (e ▸ hj) hmem)) ?_
    refine List.isChain_append.2 ⟨chain_congr hc₁ fun j hj => hkeep j ?_, ?_, fun a ha b hb => ?_⟩
    · exact hdisj j hj c (by simp)
    · refine (List.isChain_cons_cons.1 hc₂).2.imp_of_mem_tail_imp fun a b _ hb hab => (hkeep b ?_).trans hab
      rintro rfl
      exact (List.nodup_cons.1 (List.nodup_cons.1 hnd₂).2).1 hb
    · obtain rfl : c = b := Option.some.inj hb
      exact hc'.trans (hm.prev_eq hk ha)

/-- A node that is nowhere else becomes the last one of a queue. -/
theorem Threads.append (h : Threads null next head tail free Q F) (hi : i ≠ null) (hQ : ∀ k, i ∉ Q k) (hF : i ∉ F)
    (hnext : ∀ j, j ≠ i → next' j = if head k ≠ null ∧ j = tail k then i else next j) (hend : next' i = null)
    (hhead : ∀ k', head' k' = if k' = k then if head k = null then i else head k else head k')
    (htail : ∀ k', tail' k' = if k' = k then i else tail k') :
    Threads null next' head' tail' free (Function.update Q k (Q k ++ [i])) F := by
  have hkeep : ∀ j, j ≠ i → j ∉ Q k → next' j = next j := by
    intro j hj hjk
    rw [hnext j hj, if_neg]
    rintro ⟨hne, rfl⟩
    exact hjk (h.tail_mem fun e => hne ((h.head_eq_null k).2 e))
  have hmem : ∀ j, j ∈ Q k ++ [i] ↔ j ∈ Q k ∨ j = i := fun j => by simp
  refine h.update (fun k' hne => ⟨?_, ?_, fun j hj => hkeep j (fun e => hQ k' (e ▸ hj)) fun hj' =>
      hne (h.apart k' k j hj hj')⟩) ?_ (fun a ha => ?_) (fun hm => ?_) (fun j hj k' hne hj' => ?_)
    (h.freeList.congr fun j hj => hkeep j (fun e => hF (e ▸ hj)) (h.free_apart k j hj)) h.null_free
    fun j hj => ⟨fun hm => ?_, fun k' _ => h.free_apart k' j hj⟩
  · rw [hhead, if_neg hne]
  · rw [htail, if_neg hne]
  · refine (h.queue k).extend (h.nodup k) (hQ k) (fun j hj hlast => ?_) (fun a ha => ?_) hend ?_
    · rw [hnext j fun e => hQ k (e ▸ hj), if_neg]
      rintro ⟨_, rfl⟩
      have hne : Q k ≠ [] := List.ne_nil_of_mem hj
      have ha := List.getLast?_eq_some_getLast hne
      exact hlast (h.tail k _ ha ▸ ha)
    · have ha' : a ∈ Q k := List.mem_of_getLast? ha
      have hne : head k ≠ null := fun e => List.ne_nil_of_mem ha' ((h.head_eq_null k).1 e)
      rw [hnext a fun e => hQ k (e ▸ ha'), if_pos ⟨hne, (h.tail k a ha).symm⟩]
    · rw [hhead, if_pos rfl]
      by_cases e : head k = null
      · rw [if_pos e, if_pos ((h.head_eq_null k).1 e)]
      · rw [if_neg e, if_neg fun e' => e ((h.head_eq_null k).2 e')]
  · rw [List.getLast?_concat] at ha
    rw [htail, if_pos rfl, Option.some.inj ha]
  · exact ((hmem null).1 hm).elim (h.null_queue k) fun e => hi e.symm
  · rcases (hmem j).1 hj with hj | rfl
    · exact hne (h.apart k' k j hj' hj)
    · exact hQ k' hj'
  · rcases (hmem j).1 hm with hm | rfl
    · exact h.free_apart k j hj hm
    · exact hF hj

theorem Mirrored.append (hm : Mirrored prev Q) (h : Threads null next head tail free Q F) (hQ : ∀ k, i ∉ Q k)
    (hprev : ∀ j, prev' j = if j = i then if head k = null then null else tail k else prev j) :
    Mirrored prev' (Function.update Q k (Q k ++ [i])) := by
  have hkeep : ∀ k' j, j ∈ Q k' → prev' j = prev j := fun k' j hj => by
    rw [hprev, if_neg fun e : j = i => hQ k' (e ▸ hj)]
  refine hm.update (fun k' _ => hkeep k') ((chain_congr (hm k) (hkeep k)).append (List.isChain_singleton _)
    fun a ha b hb => ?_)
  obtain rfl : i = b := Option.some.inj hb
  have hne : head k ≠ null := fun e => List.ne_nil_of_mem (List.mem_of_getLast? ha) ((h.head_eq_null k).1 e)
  rw [hprev, if_pos rfl, if_neg hne, h.tail k a ha]

theorem Fronts.unlink (hf : Fronts null prev Q) (h : Threads null next head tail free Q F)
    (hk : Q k = l₁ ++ i :: l₂)
    (hprev : ∀ j, prev' j = if next i ≠ null ∧ j = next i then prev i else prev j) :
    Fronts null prev' (Function.update Q k (l₁ ++ l₂)) := by
  have hp := h.queue k
  rw [hk] at hp
  obtain ⟨_, _, _, hp₂⟩ := path_append.1 hp
  -- what follows the node is a later one of its queue
  have hnext : next i ≠ null → next i ∈ l₂ := by
    intro hne
    cases l₂ with
    | nil => exact absurd hp₂ hne
    | cons c l₂ => rw [hp₂.1]; exact List.mem_cons_self
  intro k' j l hj
  rcases eq_or_ne k' k with rfl | hne
  · rw [Function.update_self] at hj
    cases l₁ with
    | nil =>
      rw [List.nil_append] at hj hk
      rw [hj] at hp₂
      have hjnull : j ≠ null := fun e => h.null_queue k' (by rw [hk, hj, e]; simp)
      rw [hprev, if_pos ⟨fun e => hjnull (hp₂.1.symm.trans e), hp₂.1.symm⟩]
      exact hf k' i l₂ hk
    | cons a l₁ =>
      obtain ⟨rfl, rfl⟩ := List.cons.inj hj
      have hnd := h.nodup k'
      rw [hk] at hnd
      rw [hprev, if_neg]
      · exact hf k' a _ hk
      · rintro ⟨hne, rfl⟩
        exact (List.nodup_cons.1 hnd).1 (List.mem_append_right _ (List.mem_cons_of_mem _ (hnext hne)))
  · rw [Function.update_of_ne hne] at hj
    rw [hprev, if_neg]
    · exact hf k' j l hj
    · rintro ⟨hne', rfl⟩
      have hmem : next i ∈ Q k := by
        rw [hk]
        exact List.mem_append_right _ (List.mem_cons_of_mem _ (hnext hne'))
      exact hne (h.apart k' k _ (by rw [hj]; exact List.mem_cons_self) hmem)

/-- The node that is appended gets a predecessor exactly if it is not the first one. -/
theorem fronts_append (h : Threads null next head tail free Q F) (hQ : ∀ k, i ∉ Q k)
    (hprev : ∀ j, prev' j = if j = i then if head k = null then null else tail k else prev j) :
    Fronts null prev' (Function.update Q k (Q k ++ [i])) ↔ Fronts null prev Q := by
  have hkeep : ∀ k' j l, Q k' = j :: l → prev' j = prev j := fun k' j l hj => by
    rw [hprev, if_neg fun e : j = i => hQ k' (by rw [hj, e]; exact List.mem_cons_self)]
  constructor
  · intro hf k' j l hj
    rw [← hkeep k' j l hj]
    rcases eq_or_ne k' k with rfl | hne
    · exact hf k' j (l ++ [i]) (by rw [Function.update_self, hj, List.cons_append])
    · exact hf k' j l (by rw [Function.update_of_ne hne, hj])
  · intro hf k' j l hj
    rcases eq_or_ne k' k with rfl | hne
    · rw [Function.update_self] at hj
      cases hk : Q k' with
      | nil =>
        rw [hk, List.nil_append] at hj
        obtain ⟨rfl, _⟩ := List.cons.inj hj
        rw [hprev, if_pos rfl, if_pos ((h.head_eq_null k').2 hk)]
      | cons a l₀ =>
        rw [hk, List.cons_append] at hj
        obtain ⟨rfl, _⟩ := List.cons.inj hj
        rw [hkeep k' a l₀ hk]
        exact hf k' a l₀ hk
    · rw [Function.update_of_ne hne] at hj
      rw [hkeep k' j l hj]
      exact hf k' j l hj

/-! ### The nodes of the pool -/

omit [DecidableEq ν] in
/-- A node that leaves its queue is in no queue any more, and the others stay where they are. -/
theorem Threads.mem_of_unlink (h : Threads null next head tail free Q F) (hk : Q k = l₁ ++ i :: l₂) {k' : κ} {j : ν}
    (hj : j ∈ Function.update Q k (l₁ ++ l₂) k') : j ∈ Q k' ∧ j ≠ i := by
  have hi : i ∈ Q k := by rw [hk]; simp
  rcases eq_or_ne k' k with rfl | hne
  · rw [Function.update_self] at hj
    have hnd := h.nodup k'
    rw [hk, List.nodup_middle] at hnd
    refine ⟨?_, fun e => (List.nodup_cons.1 hnd).1 (e ▸ hj)⟩
    rw [hk]
    exact (List.mem_append.1 hj).elim (List.mem_append_left _)
      fun hj => List.mem_append_right _ (List.mem_cons_of_mem _ hj)
  · rw [Function.update_of_ne hne] at hj
    exact ⟨hj, fun e => hne (h.apart k' k i (e ▸ hj) hi)⟩

omit [DecidableEq ν] in
theorem Threads.mem_of_pop (h : Threads null next head tail free Q F) (hk : Q k = i :: l) {k' : κ} {j : ν}
    (hj : j ∈ Function.update Q k l k') : j ∈ Q k' ∧ j ≠ i :=
  h.mem_of_unlink (hk.trans (List.nil_append _).symm) hj

omit [DecidableEq ν] in
/-- A node that is nowhere else is in the queue it is appended to. -/
theorem mem_of_append (hQ : ∀ k, i ∉ Q k) {k' : κ} {j : ν} (hj : j ∈ Function.update Q k (Q k ++ [i]) k') :
    j ∈ Q k' ∧ j ≠ i ∨ j = i ∧ k' = k := by
  rcases eq_or_ne k' k with rfl | hne
  · rw [Function.update_self, List.mem_append, List.mem_singleton] at hj
    exact hj.imp (fun hj => ⟨hj, fun e => hQ _ (e ▸ hj)⟩) fun e => ⟨e, rfl⟩
  · rw [Function.update_of_ne hne] at hj
    exact Or.inl ⟨hj, fun e => hQ k' (e ▸ hj)⟩

omit [DecidableEq ν] in
/-- The other nodes stay in their queues. -/
theorem mem_unlink_of_ne (hk : Q k = l₁ ++ i :: l₂) {k' : κ} {j : ν} (hj : j ∈ Q k') (hne : j ≠ i) :
    j ∈ Function.update Q k (l₁ ++ l₂) k' := by
  rcases eq_or_ne k' k with rfl | hk'
  · rw [Function.update_self]
    rw [hk] at hj
    rcases List.mem_append.1 hj with hj | hj
    · exact List.mem_append_left _ hj
    · exact List.mem_append_right _ ((List.mem_cons.1 hj).resolve_left hne)
  · rwa [Function.update_of_ne hk']

omit [DecidableEq ν] in
theorem mem_append_of_mem {k' : κ} {j : ν} (hj : j ∈ Q k') : j ∈ Function.update Q k (Q k ++ [i]) k' := by
  rcases eq_or_ne k' k with rfl | hne
  · rw [Function.update_self]
    exact List.mem_append_left _ hj
  · rwa [Function.update_of_ne hne]

omit [DecidableEq ν] in
theorem mem_append_self : i ∈ Function.update Q k (Q k ++ [i]) k := by
  rw [Function.update_self]
  exact List.mem_append_right _ List.mem_cons_self

/-- The node is free or in a queue. -/
def Held (Q : κ → List ν) (F : List ν) (j : ν) : Prop := j ∈ F ∨ ∃ k, j ∈ Q k

omit [DecidableEq ν] in
/-- A node that leaves its queue and becomes free stays in the pool. -/
theorem held_release (hk : Q k = l₁ ++ i :: l₂) {j : ν} (hj : Held Q F j) :
    Held (Function.update Q k (l₁ ++ l₂)) (i :: F) j := by
  rcases hj with hj | ⟨k', hj⟩
  · exact Or.inl (List.mem_cons_of_mem _ hj)
  · rcases eq_or_ne j i with rfl | hne
    · exact Or.inl List.mem_cons_self
    · exact Or.inr ⟨k', mem_unlink_of_ne hk hj hne⟩

omit [DecidableEq ν] in
theorem held_pop (hk : Q k = i :: l) {j : ν} (hj : Held Q F j) : Held (Function.update Q k l) (i :: F) j :=
  held_release (hk.trans (List.nil_append _).symm) hj

omit [DecidableEq ν] in
/-- A free node that becomes the last one of a queue stays in the pool. -/
theorem held_append {j : ν} (hj : Held Q (i :: F) j) : Held (Function.update Q k (Q k ++ [i])) F j := by
  rcases hj with hj | ⟨k', hj⟩
  · rcases List.mem_cons.1 hj with rfl | hj
    · exact Or.inr ⟨k, mem_append_self⟩
    · exact Or.inl hj
  · exact Or.inr ⟨k', mem_append_of_mem hj⟩

end Update

end Threads

end Links
