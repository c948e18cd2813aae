import Mathlib.Algebra.BigOperators.Group.Finset.Basic
import Lobook.Book.Amendment

/-!
# What is bought is what is sold

Every quantity that enters the book, by a submission or a replacement, later leaves it by a cancellation or a
replacement, or is traded, or still rests.  What is traded is the same on both sides, so the accounts of the two sides
differ from what rests by one and the same quantity (`balanced_run`).
-/

namespace Lobook

open Checked Links PriceTime Relation Transition

namespace PriceTime

variable {ι : Type} {A A' : Quotes ι} {s isBuy : Bool} {limit price qty qty' N : Nat} {e : ι × Nat} {k : Bool × Nat}
  {l l₁ l₂ : List (ι × Nat)}

/-- The quantities of the orders of a queue. -/
def total (l : List (ι × Nat)) : Nat := (l.map Prod.snd).sum

@[simp] theorem total_nil : total ([] : List (ι × Nat)) = 0 := rfl

@[simp] theorem total_cons (e : ι × Nat) (l : List (ι × Nat)) : total (e :: l) = e.2 + total l := by
  simp [total]

@[simp] theorem total_append (l l' : List (ι × Nat)) : total (l ++ l') = total l + total l' := by
  simp [total]

/-- What rests on a side below the price `N`. -/
def depth (N : Nat) (A : Quotes ι) (s : Bool) : Nat := ∑ p ∈ Finset.range N, total (A (s, p))

/-- One queue changes. -/
theorem depth_update (A : Quotes ι) (s : Bool) (hp : price < N) (l : List (ι × Nat)) :
    depth N (Function.update A (s, price) l) s + total (A (s, price)) = depth N A s + total l := by
  have hmem : price ∈ Finset.range N := Finset.mem_range.2 hp
  have hrest : ∀ p ∈ (Finset.range N).erase price, total (Function.update A (s, price) l (s, p)) = total (A (s, p)) := by
    intro p hmem
    have hne : (s, p) ≠ (s, price) := fun e => Finset.ne_of_mem_erase hmem (Prod.mk.inj e).2
    rw [Function.update_of_ne hne]
  unfold depth
  rw [← Finset.add_sum_erase _ _ hmem, ← Finset.add_sum_erase _ (fun p => total (A (s, p))) hmem,
    Finset.sum_congr rfl hrest, Function.update_self]
  omega

/-- The queues of a side do not matter to the other one. -/
theorem depth_update_of_ne {s' : Bool} (hs : s ≠ s') (A : Quotes ι) (l : List (ι × Nat)) :
    depth N (Function.update A (s', price) l) s = depth N A s := by
  apply Finset.sum_congr rfl
  intro p _
  have hne : (s, p) ≠ (s', price) := fun e => hs (Prod.mk.inj e).1
  rw [Function.update_of_ne hne]

/-- Nothing rests at a price from `N` on. -/
def Within (N : Nat) (A : Quotes ι) : Prop := ∀ k, A k ≠ [] → k.2 < N

theorem Within.of_prices (h : Within N A) (hsub : ∀ side, prices A' side ⊆ prices A side) : Within N A' :=
  fun k hk => h k (hsub k.1 hk)

/-- What is traded leaves the incoming order and the other side. -/
theorem Trade.balance (hN : Within N A) (h : Trade isBuy limit (A, qty) (A', qty')) :
    ∃ v, qty' + v = qty ∧ depth N A' (!isBuy) + v = depth N A (!isBuy) ∧ depth N A' isBuy = depth N A isBuy := by
  cases h with
  | @full _ _ p e l _ hbest hA hle =>
    have hp : p < N := hN _ hbest.rests
    have hdepth := depth_update A (!isBuy) hp l
    rw [hA, total_cons] at hdepth
    exact ⟨e.2, Nat.sub_add_cancel hle, by omega, depth_update_of_ne (Bool.not_ne_self isBuy).symm A l⟩
  | @part _ _ p e l _ hbest hA hlt =>
    have hp : p < N := hN _ hbest.rests
    have hdepth := depth_update A (!isBuy) hp ((e.1, e.2 - qty) :: l)
    rw [hA, total_cons, total_cons] at hdepth
    exact ⟨qty, Nat.zero_add qty, by omega, depth_update_of_ne (Bool.not_ne_self isBuy).symm A _⟩

theorem trades_balance (hN : Within N A) (h : ReflTransGen (Trade isBuy limit) (A, qty) (A', qty')) :
    ∃ v, qty' + v = qty ∧ depth N A' (!isBuy) + v = depth N A (!isBuy) ∧ depth N A' isBuy = depth N A isBuy := by
  generalize ht : (A', qty') = t at h
  induction h generalizing A' qty' with
  | refl =>
    cases ht
    exact ⟨0, rfl, rfl, rfl⟩
  | @tail t u htrades h ih =>
    obtain ⟨A₁, qty₁⟩ := t
    subst ht
    obtain ⟨v, hqty, hother, hsame⟩ := ih rfl
    have hN₁ : Within N A₁ := hN.of_prices (trades_prices htrades)
    obtain ⟨v', hqty', hother', hsame'⟩ := h.balance hN₁
    exact ⟨v + v', by omega, by omega, hsame'.trans hsame⟩

theorem depth_enqueue (hp : price < N) (A : Quotes ι) (e : ι × Nat) :
    depth N (enqueue A (s, price) e) s = depth N A s + e.2 := by
  have hdepth := depth_update A s hp (A (s, price) ++ [e])
  rw [total_append, total_cons, total_nil] at hdepth
  unfold enqueue
  omega

theorem depth_enqueue_of_ne {s' : Bool} (hs : s ≠ s') (A : Quotes ι) (e : ι × Nat) :
    depth N (enqueue A (s', price) e) s = depth N A s := depth_update_of_ne hs A _

/-- An order leaves its queue. -/
theorem depth_remove (hp : price < N) (hk : A (s, price) = l₁ ++ e :: l₂) :
    depth N (Function.update A (s, price) (l₁ ++ l₂)) s + e.2 = depth N A s := by
  have hdepth := depth_update A s hp (l₁ ++ l₂)
  rw [hk, total_append, total_append, total_cons] at hdepth
  omega

/-! ### The balance of a request -/

/-- What an order trades, leaves it and the other side. -/
theorem Step.submit_balance {A A' : Quotes Nat} {id : Nat} (hN : Within N A) (hp : price < N)
    (h : Step A (.submit id price qty isBuy) A') :
    ∃ v, depth N A' isBuy + v = depth N A isBuy + qty ∧ depth N A' (!isBuy) + v = depth N A (!isBuy) := by
  obtain ⟨A₁, qty', htrades, _, rfl⟩ := h.of_submit
  obtain ⟨v, hqty, hother, hsame⟩ := trades_balance hN htrades
  refine ⟨v, ?_⟩
  unfold rest
  split
  · have hown := depth_enqueue (s := isBuy) hp A₁ (id, qty')
    have hnot : depth N (enqueue A₁ (isBuy, price) (id, qty')) (!isBuy) = depth N A₁ (!isBuy) :=
      depth_enqueue_of_ne (Bool.not_ne_self isBuy) A₁ _
    unfold enqueue at hown hnot
    omega
  · omega

theorem Distinct.withdraw_eq {A : Quotes Nat} (hd : Distinct A) {e : Nat × Nat} {l₁ l₂ : List (Nat × Nat)}
    (hk : A k = l₁ ++ e :: l₂) : withdraw A e.1 = Function.update A k (l₁ ++ l₂) := by
  have he : e ∈ A k := by rw [hk]; simp
  apply withdraw_eq_update hk
  · intro x hx hid
    have hnodup := hd.nodup k
    rw [hk, List.map_append, List.map_cons, List.nodup_middle, List.nodup_cons, ← List.map_append] at hnodup
    apply hnodup.1
    rw [← hid]
    exact List.mem_map_of_mem hx
  · intro k' hne x hx hid
    exact hne (hd.apart k' k x e hx he hid)

theorem withdraw_balance {A : Quotes Nat} {e : Nat × Nat} (hd : Distinct A) (hN : Within N A) (he : e ∈ A (s, price)) :
    depth N (withdraw A e.1) s + e.2 = depth N A s ∧ depth N (withdraw A e.1) (!s) = depth N A (!s) := by
  obtain ⟨l₁, l₂, hk⟩ := List.append_of_mem he
  have hp : price < N := hN _ (List.ne_nil_of_mem he)
  rw [hd.withdraw_eq hk]
  exact ⟨depth_remove hp hk, depth_update_of_ne (Bool.not_ne_self s) A _⟩

theorem Obeys.replace_balance {A A' : Quotes Nat} {e : Nat × Nat} {newPrice newQty : Nat} (hd : Distinct A)
    (hN : Within N A) (he : e ∈ A (s, price)) (hp : newPrice < N) (h : Obeys A (.replace e.1 newPrice newQty) A') :
    depth N A' s + e.2 = depth N A s + newQty ∧ depth N A' (!s) = depth N A (!s) := by
  obtain ⟨⟨s', price'⟩, e', l₁, l₂, hk, hid, h⟩ := h.of_replace
  have he' : e' ∈ A (s', price') := by rw [hk]; simp
  obtain ⟨hkey, rfl⟩ := hd.eq_of_id he' he hid
  obtain ⟨rfl, rfl⟩ := Prod.mk.inj hkey
  have hp' : price' < N := hN _ (List.ne_nil_of_mem he)
  have hne := Bool.not_ne_self s'
  rcases h with ⟨_, _, rfl⟩ | ⟨_, rfl⟩
  · have hown := depth_update A s' hp' (l₁ ++ (e'.1, newQty) :: l₂)
    rw [hk, total_append, total_append, total_cons, total_cons] at hown
    exact ⟨by omega, depth_update_of_ne hne A _⟩
  · have hown := depth_remove hp' hk
    have hadd := depth_enqueue (s := s') hp (Function.update A (s', price') (l₁ ++ l₂)) (e'.1, newQty)
    rw [depth_enqueue_of_ne hne, depth_update_of_ne hne]
    exact ⟨hadd ▸ by omega, rfl⟩

end PriceTime

/-! ### The accounts of a run -/

namespace FastBitsetOrderBook

open Ladder

/-- What a request adds to a side of the book. -/
def entering (b : FastBitsetOrderBook) : Request → Bool → Nat
  | .call (.submit _ _ qty isBuy), s => if s = isBuy then qty else 0
  | .call (.cancel _), _ => 0
  | .replace id _ newQty, s => if s = (b.order (b.slot id)).isBuy then newQty else 0

/-- What a request takes away from it. -/
def leaving (b : FastBitsetOrderBook) : Request → Bool → Nat
  | .call (.submit _ _ _ _), _ => 0
  | .call (.cancel id), s => if s = (b.order (b.slot id)).isBuy then (b.order (b.slot id)).qty else 0
  | .replace id _ _, s => if s = (b.order (b.slot id)).isBuy then (b.order (b.slot id)).qty else 0

/-- The book, with the accounts of its sides. -/
structure Account where
  book : FastBitsetOrderBook
  entered : Bool → Nat
  left : Bool → Nat

/-- A request, and its entries in the accounts. -/
def Account.Step (a : Account) (r : Request) (a' : Account) : Prop :=
  a.book.RequestStep r a'.book ∧ a'.entered = (fun s => a.entered s + a.book.entering r s) ∧
    a'.left = fun s => a.left s + a.book.leaving r s

variable {b b' : FastBitsetOrderBook} {Q Q' : Bool × Nat → List Nat} {F : List Nat} {n : Nat}

theorem Whole.within (hw : b.Whole n Q F) : Within MAX_PRICES (b.quotes Q) := by
  intro k hne
  obtain ⟨x, hx⟩ := List.exists_mem_of_ne_nil _ hne
  obtain ⟨i, hi, rfl⟩ := List.mem_map.1 hx
  exact hw.pool.price_lt k i hi

/-- Apart from its entries, a request takes the same quantity from both sides. -/
theorem Whole.balance (hw : b.Whole n Q F) {N : Nat} (hmax : N = MAX_PRICES) {r : Request} (hlegal : Legal n b r)
    {A : Quotes Nat} (hrule : Obeys (b.quotes Q) r A) :
    ∃ v, ∀ s, depth N A s + b.leaving r s + v = depth N (b.quotes Q) s + b.entering r s := by
  have hd := hw.pool.distinct
  have hN : Within N (b.quotes Q) := hmax ▸ hw.within
  match r with
  | .call (.submit id price qty isBuy) =>
    cases hrule with
    | call h =>
      obtain ⟨v, hown, hother⟩ := h.submit_balance hN (hmax ▸ hlegal.2.2)
      refine ⟨v, fun s => ?_⟩
      simp only [leaving, entering]
      split
      · rename_i hs
        rw [hs]
        omega
      · rename_i hs
        obtain rfl : s = !isBuy := Bool.eq_not_of_ne hs
        omega
  | .call (.cancel id) =>
    obtain ⟨⟨isBuy, price⟩, i, hi, rfl⟩ := hw.pool.resting_iff.1 hlegal
    have hentry : b.entry i ∈ b.quotes Q (isBuy, price) := List.mem_map_of_mem hi
    cases hrule with
    | call h =>
      cases h with
      | cancel =>
        obtain ⟨hown, hother⟩ := withdraw_balance hd hN hentry
        refine ⟨0, fun s => ?_⟩
        simp only [leaving, entering, (hw.pool.mapped _ i hi).2, (hw.pool.place_eq hi).1]
        simp only [Ladder.entry] at hown hother
        split
        · rename_i hs
          rw [hs]
          omega
        · rename_i hs
          obtain rfl : s = !isBuy := Bool.eq_not_of_ne hs
          omega
  | .replace id newPrice newQty =>
    obtain ⟨hrest, hp⟩ := hlegal
    obtain ⟨⟨isBuy, price⟩, i, hi, rfl⟩ := hw.pool.resting_iff.1 hrest
    have hentry : b.entry i ∈ b.quotes Q (isBuy, price) := List.mem_map_of_mem hi
    obtain ⟨hown, hother⟩ := Obeys.replace_balance hd hN hentry (hmax ▸ hp) hrule
    refine ⟨0, fun s => ?_⟩
    simp only [leaving, entering, (hw.pool.mapped _ i hi).2, (hw.pool.place_eq hi).1]
    simp only [Ladder.entry] at hown
    split
    · rename_i hs
      rw [hs]
      omega
    · rename_i hs
      obtain rfl : s = !isBuy := Bool.eq_not_of_ne hs
      omega

/-- The requests that are lawful for the book. -/
def Account.Lawful (n : Nat) (a : Account) (r : Request) : Prop := FastBitsetOrderBook.Lawful n a.book r

theorem depth_empty {N : Nat} (s : Bool) : depth N (fun _ => [] : Quotes Nat) s = 0 :=
  Finset.sum_eq_zero fun _ _ => rfl

theorem account_run {b₀ : FastBitsetOrderBook} (hlt : n < NULL_IDX) (hinit : new.init n = .ok b₀) {N : Nat}
    (hmax : N = MAX_PRICES) {rs : List Request} {a : Account}
    (hrun : Run (Guarded (Account.Lawful n) Account.Step) ⟨b₀, fun _ => 0, fun _ => 0⟩ rs a) :
    ∃ traded, ∀ s, a.entered s = a.left s + depth N a.book.shown s + traded := by
  obtain ⟨Q₀, F₀, hw₀, hempty⟩ := whole_init hlt hinit
  suffices h : ∃ Q F, a.book.Whole n Q F ∧
      ∃ traded, ∀ s, a.entered s = a.left s + depth N (a.book.quotes Q) s + traded by
    obtain ⟨Q, F, hw, h⟩ := h
    rwa [hw.pool.shown_eq]
  induction hrun with
  | refl =>
    refine ⟨Q₀, F₀, hw₀, 0, fun s => ?_⟩
    rw [hempty, depth_empty]
  | snoc _ hs ih =>
    obtain ⟨Q, F, hw, traded, ih⟩ := ih
    obtain ⟨⟨hlegal, hdetach⟩, hstep, hentered, hleft⟩ := hs
    obtain ⟨b', Q', F', hstep', hw', hrule⟩ := hw.request_obeys hlegal hdetach
    obtain rfl := hstep.unique hstep'
    obtain ⟨v, hv⟩ := hw.balance hmax hlegal hrule
    refine ⟨Q', F', hw', traded + v, fun s => ?_⟩
    have hbefore := ih s
    have hrequest := hv s
    rw [hentered, hleft]
    simp only
    omega

/-- Every run has its accounts. -/
theorem account_of_run {b₀ : FastBitsetOrderBook} {rs : List Request}
    (hrun : Run (Guarded (Lawful n) RequestStep) b₀ rs b) :
    ∃ a, a.book = b ∧ Run (Guarded (Account.Lawful n) Account.Step) ⟨b₀, fun _ => 0, fun _ => 0⟩ rs a := by
  induction hrun with
  | refl => exact ⟨_, rfl, Run.refl⟩
  | @snoc _ r _ u _ hs ih =>
    obtain ⟨a, rfl, ha⟩ := ih
    let a' : Account :=
      ⟨u, fun s => a.entered s + a.book.entering r s, fun s => a.left s + a.book.leaving r s⟩
    exact ⟨a', rfl, ha.snoc ⟨hs.1, hs.2, rfl, rfl⟩⟩

end FastBitsetOrderBook

end Lobook
