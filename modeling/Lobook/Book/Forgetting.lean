import Lobook.Book.Exposure

/-!
# What `init` forgets

`init` empties the levels and the index and links all slots to one free list, but a vector that does not grow keeps its
contents.  So an initialised book answers every sequence of calls and queries as a new one does if and only if the
leftovers are such that nobody can see them (`init_forgets_iff`).
-/

namespace Lobook

open Checked Transition

namespace FastOrderBook

open Ladder

/-- After `init(n)` no sequence of calls and queries tells the book from a new one. -/
def Forgets (b : FastOrderBook) (n : Nat) : Prop :=
  ∃ b₁ b₀, b.init n = .ok b₁ ∧ Ladder.new.init n = .ok b₀ ∧ SameAnswers (fun b a => Ladder.Asks b n a) Answers b₁ b₀

variable {b b₀ b₁ : FastOrderBook} {n id qty : Nat}

/-! ### A book that cannot be told from a new one -/

theorem quantity_of_same (h : SameAnswers (Polite n) Answers b b₀) (hqty : b₀.getQuantity id = .ok qty) :
    b.getQuantity id = .ok qty := by
  obtain ⟨_, e, _⟩ := h.answer (l := .quantity id qty) ⟨trivial, trivial⟩ ⟨trivial, trivial⟩ ⟨hqty, rfl⟩
  exact e

/-- A new book sends every id to slot 0, whose order has no quantity. -/
theorem new_quantity (hi : Ladder.new.Initialised n b₀) (id : Nat) : b₀.getQuantity id = .ok 0 := by
  rcases Nat.lt_or_ge id n with hid | hid
  · have hslot : Ladder.slot b₀ id = 0 := hi.keptSlot hid
    rw [getQuantity_of_lt (hi.map_size.symm ▸ hid) hslot zero_ne_null (hi.size.symm ▸ hi.pos), hi.kept hi.pos]
    rfl
  · exact getQuantity_absent (Or.inl (hi.map_size.symm ▸ hid))

/-- The order of slot 0 has no quantity and can be cancelled, if the map leads there. -/
theorem first_of_same (h : SameAnswers (Polite n) Answers b b₀) (hi : b₁.Initialised n b)
    (hi₀ : Ladder.new.Initialised n b₀) (hnull : Ladder.slot b 0 ≠ NULL_IDX) :
    Ladder.slot b 0 < n ∧ (Ladder.slot b 0 = 0 → (Ladder.order b 0).qty = 0 ∧
      (Ladder.order b 0).price < MAX_PRICES ∧ b.Fits (Ladder.order b 0).prev) := by
  have hid : 0 < b.idMap.size := hi.map_size.symm ▸ hi.pos
  have hslot₀ : Ladder.slot b₀ 0 = 0 := hi₀.keptSlot hi.pos
  obtain ⟨_, e₀, _⟩ := (hi₀.idle (new_forgettable hi.pos)).cancelOrder (hi₀.map_size.symm ▸ hi.pos) hslot₀
  obtain ⟨_, fuel, e⟩ := h.answer (l := .call (.cancel 0)) ⟨trivial, trivial⟩ ⟨trivial, trivial⟩ ⟨0, e₀⟩
  obtain ⟨hlt, hprice, hprev, _⟩ := cancelOrder_lt e hid hnull
  obtain ⟨_, hqty⟩ := getQuantity_lt hid hnull (quantity_of_same h (new_quantity hi₀ 0))
  refine ⟨hi.size ▸ hlt, fun hslot => ?_⟩
  rw [hslot] at hprice hprev hqty
  exact ⟨hqty, hprice, hprev⟩

/-- Every entry is 0 in a book of size at least 2: the first order gets slot 0, and the id of no other order. -/
theorem entry_of_same (h : SameAnswers (Polite n) Answers b b₀) (hi : b₁.Initialised n b)
    (hi₀ : Ladder.new.Initialised n b₀) (hn : 2 ≤ n) (hid : id < n) : Ladder.slot b id = 0 := by
  obtain ⟨other, hother, hne⟩ : ∃ other, other < n ∧ id ≠ other := by
    by_cases hzero : id = 0
    · exact ⟨1, hn, by omega⟩
    · exact ⟨0, hi.pos, hzero⟩
  have hsame := h.after (Run.single (guarded_first hi hother)) (Run.single (guarded_first hi₀ hother))
  -- the id leads to the order just submitted in the new book, and therefore in the other one
  have hslot : Ladder.slot (seeded b₀ other) id = 0 := (slot_seeded b₀ hne).trans (hi₀.keptSlot hid)
  have hqty : (seeded b₀ other).getQuantity id = .ok 1 := by
    rw [getQuantity_of_lt (by exact hi₀.map_size.symm ▸ hid) hslot zero_ne_null (by exact hi₀.size.symm ▸ hi₀.pos),
      order_seeded, if_pos rfl]
  have hone := quantity_of_same hsame hqty
  have hmap : id < b.idMap.size := hi.map_size.symm ▸ hid
  by_cases hnull : Ladder.slot b id = NULL_IDX
  · cases (getQuantity_absent (Or.inr ((slot_seeded b hne).trans hnull))).symm.trans hone
  · obtain ⟨_, hzero⟩ := getQuantity_lt hmap hnull (quantity_of_same h (new_quantity hi₀ id))
    obtain ⟨_, hone⟩ := getQuantity_lt (b := seeded b other) hmap (by rwa [slot_seeded b hne]) hone
    rw [slot_seeded b hne, order_seeded] at hone
    by_contra hslot
    rw [if_neg hslot, hzero] at hone
    cases hone

/-- The orders that the free list leads to behind the first two have no quantity, and no other id than 0: otherwise they
do not let the bid and the order of the script rest that rest in a new book. -/
theorem rest_of_same (h : SameAnswers (Polite n) Answers b b₀) (hi : b₁.Initialised n b)
    (hi₀ : Ladder.new.Initialised n b₀) {i : Nat} (hslot : i ∈ slots n) (hle : 2 ≤ i) :
    (Ladder.order b i).qty = 0 ∧ (Ladder.order b i).id = 0 := by
  have hn : 3 ≤ n := Nat.lt_of_le_of_lt hle hslot.1
  have hshow : ∀ x, 0 < x → x < n →
      (Ladder.order b i).qty = 0 ∧ (Ladder.order b i).id < n ∧ (Ladder.order b i).id ≠ x := by
    intro x hx hxn
    obtain ⟨z, hz, hzn, hzx⟩ : ∃ z, 0 < z ∧ z < n ∧ z ≠ x := by
      by_cases hone : x = 1
      · exact ⟨2, Nat.two_pos, hn, by omega⟩
      · exact ⟨1, Nat.one_pos, by omega, Ne.symm hone⟩
    have hrest : ∀ i ∈ slots n, 2 ≤ i → (Ladder.order b₀ i).qty = 0 ∧ (Ladder.order b₀ i).id = 0 := by
      intro i hi _
      rw [hi₀.kept hi.1]
      exact ⟨rfl, rfl⟩
    -- after the script both orders of the bait rest in the new book, and so they do in the other one
    have hsame := h.after (script_run hi hn hx hxn) (script_run hi₀ hn hx hxn)
    have hguard : ∀ b, Polite n (baited b x) (.call (.submit z 1 2 true)) := by
      intro b
      refine ⟨⟨hzn, ?_, by decide⟩, by decide, by decide⟩
      exact stage_not_resting (S := {0, 1}) (fun _ hi => hi) (fun _ => ⟨Nat.ne_of_lt hz, fun _ => Or.inl rfl⟩)
        (fun _ => ⟨hzx.symm, within_null⟩) (fun _ => Or.inl rfl) (fun _ => Or.inr rfl)
    obtain ⟨t, hstep₀, hqz, hqx⟩ := bait_taken hi₀ hn hx hxn hzn hzx hrest
    obtain ⟨u, hstep⟩ := hsame.answer (hguard b) (hguard b₀) hstep₀
    have hafter := hsame.after (Run.single ⟨hguard b, hstep⟩) (Run.single ⟨hguard b₀, hstep₀⟩)
    exact bait_shows hi hn hx hz hzn hzx (Or.inr (entry_of_same h hi hi₀ (by omega) hzn)) hstep
      (quantity_of_same hafter hqz) (quantity_of_same hafter hqx) hslot hle
  obtain ⟨hqty, hid, _⟩ := hshow 1 Nat.one_pos (by omega)
  refine ⟨hqty, ?_⟩
  by_contra hzero
  -- the bait with the id of the order itself shows it
  exact (hshow _ (Nat.pos_of_ne_zero hzero) hid).2.2 rfl

/-- A book that cannot be told from a new one after `init` has forgettable leftovers. -/
theorem forgettable_of_same (h : SameAnswers (Polite n) Answers b b₀) (hi : b₁.Initialised n b)
    (hi₀ : Ladder.new.Initialised n b₀) : b₁.Forgettable n where
  entry id hid := by
    rw [← hi.keptSlot hid]
    rcases Nat.lt_or_ge n 2 with hn | hn
    · obtain rfl : id = 0 := by omega
      by_cases hnull : Ladder.slot b 0 = NULL_IDX
      · exact Or.inr ⟨by omega, hnull⟩
      · have hlt := (first_of_same h hi hi₀ hnull).1
        exact Or.inl (by omega)
    · exact Or.inl (entry_of_same h hi hi₀ hn hid)
  first hslot := by
    rw [← hi.keptSlot hi.pos] at hslot
    obtain ⟨hqty, hprice, hprev⟩ := (first_of_same h hi hi₀ (by rw [hslot]; exact zero_ne_null)).2 hslot
    rw [hi.kept hi.pos] at hqty hprice hprev
    exact ⟨hqty, hprice, hi.size ▸ hprev⟩
  rest i hle hlt hnull := by
    have hkept := rest_of_same h hi hi₀ (i := i) ⟨hlt, hnull⟩ hle
    rwa [hi.kept hlt] at hkept

/-- `init` forgets the past of a book if and only if its leftovers are forgettable. -/
theorem forgets_iff (hn : 0 < n) : Forgets b n ↔ b.Forgettable n := by
  constructor
  · rintro ⟨b₁, b₀, h, h₀, hsame⟩
    exact forgettable_of_same (hsame.mono fun _ _ hp => hp.1) (initialised_of_eq_ok h) (initialised_of_eq_ok h₀)
  · intro hf
    obtain ⟨b₁, h, _⟩ := init_of_pos (b := b) hn
    obtain ⟨b₀, h₀, _⟩ := init_of_pos (b := Ladder.new) hn
    obtain ⟨R, hR, hrel⟩ := indistinct_of_forgettable hn hf h h₀
    exact ⟨b₁, b₀, h, h₀, (bisimulation hR).sameAnswers (fun _ _ _ _ => Answers.unique) hrel⟩

end FastOrderBook

namespace FastBitsetOrderBook

open Ladder

/-- After `init(n)` no sequence of calls and queries tells the book from a new one. -/
def Forgets (b : FastBitsetOrderBook) (n : Nat) : Prop :=
  ∃ b₁ b₀, b.init n = .ok b₁ ∧ new.init n = .ok b₀ ∧ SameAnswers (fun b a => b.Asks n a) Answers b₁ b₀

/-- A bitset book with the data of a linear-scan book. -/
def Carries (f : FastOrderBook) (b : FastBitsetOrderBook) : Prop := b.toLadder = f ∧ b.Indexed

variable {b b' : FastBitsetOrderBook} {n : Nat}

theorem carries_init (h : b.init n = .ok b') : b.toLadder.init n = .ok b'.toLadder ∧ Carries b'.toLadder b' := by
  obtain ⟨l, hl, he⟩ := bind_eq_ok.1 h
  obtain rfl : b' = _ := (Except.ok.inj he).symm
  exact ⟨hl, rfl, Indexed.init h⟩

/-- What the linear-scan book answers, so does the bitset book. -/
theorem carries_simulation (n : Nat) : Simulation Carries (Guarded (FastOrderBook.Polite n) FastOrderBook.Answers)
    (Guarded (fun b a => b.Asks n a) Answers) := by
  rintro _ b a f' ⟨rfl, hi⟩ ⟨⟨hasks, _⟩, hstep⟩
  cases a with
  | call c =>
    obtain ⟨b', hstep', hb'⟩ := step_simulated hi hstep
    exact ⟨b', ⟨hasks, hstep'⟩, hb'⟩
  | quantity id qty =>
    obtain ⟨e, rfl⟩ := hstep
    exact ⟨b, ⟨hasks, e, rfl⟩, rfl, hi⟩

/-- Books that the bitset book does not tell apart, the linear-scan book does not tell apart by polite calls. -/
theorem polite_of_same {b₀ : FastBitsetOrderBook} (h : SameAnswers (fun b a => b.Asks n a) Answers b b₀)
    (hi : b.Indexed) (hi₀ : b₀.Indexed) :
    SameAnswers (FastOrderBook.Polite n) FastOrderBook.Answers b.toLadder b₀.toLadder := by
  refine h.transfer (R := Carries) ?_ (carries_simulation n) ?_ ⟨rfl, hi⟩ ⟨rfl, hi₀⟩
  · rintro _ b a ⟨rfl, _⟩ hpolite
    exact hpolite.1
  · rintro _ b a b' ⟨rfl, hi⟩ ⟨_, hin⟩ hstep
    cases a with
    | call c => exact ⟨b'.toLadder, (step_reflected hi hin hstep).1⟩
    | quantity id qty => exact ⟨b.toLadder, hstep.1, rfl⟩

theorem forgets_iff (hn : 0 < n) : b.Forgets n ↔ b.toLadder.Forgettable n := by
  constructor
  · rintro ⟨b₁, b₀, h, h₀, hsame⟩
    obtain ⟨hl, _, hi⟩ := carries_init h
    obtain ⟨hl₀, _, hi₀⟩ := carries_init h₀
    exact FastOrderBook.forgettable_of_same (polite_of_same hsame hi hi₀) (initialised_of_eq_ok hl)
      (initialised_of_eq_ok hl₀)
  · intro hf
    obtain ⟨l₁, hl, _⟩ := init_of_pos (b := b.toLadder) hn
    obtain ⟨l₀, hl₀, _⟩ := init_of_pos (b := new.toLadder) hn
    have h : b.init n = .ok _ := bind_eq_ok.2 ⟨l₁, hl, rfl⟩
    have h₀ : new.init n = .ok _ := bind_eq_ok.2 ⟨l₀, hl₀, rfl⟩
    obtain ⟨R, hR, hrel⟩ := indistinct_of_forgettable hn hf hl hl₀
    exact ⟨_, _, h, h₀, (bisimulation hR).sameAnswers (fun _ _ _ _ => Answers.unique)
      ⟨hrel, Indexed.init h, Indexed.init h₀⟩⟩

/-- The sequences of calls and answers after `init` are those of a new book, if the leftovers are forgettable. -/
theorem traces_of_forgettable {b₀ b₁ : FastBitsetOrderBook} (hn : 0 < n) (hf : b.toLadder.Forgettable n)
    (h : b.init n = .ok b₁) (h₀ : new.init n = .ok b₀) :
    traces (Guarded (fun b a => b.Asks n a) Answers) b₁ = traces (Guarded (fun b a => b.Asks n a) Answers) b₀ := by
  obtain ⟨R, hR, hrel⟩ := indistinct_of_forgettable hn hf (carries_init h).1 (carries_init h₀).1
  exact (bisimulation hR).traces_eq ⟨hrel, Indexed.init h, Indexed.init h₀⟩

/-- For both books: `init` forgets the past if and only if it leaves entries and orders that nobody can see. -/
theorem init_forgets_iff (hn : 0 < n) : (∀ b : FastBitsetOrderBook, b.Forgets n ↔ b.toLadder.Forgettable n) ∧
    ∀ b : FastOrderBook, FastOrderBook.Forgets b n ↔ Ladder.Forgettable b n :=
  ⟨fun _ => forgets_iff hn, fun _ => FastOrderBook.forgets_iff hn⟩

/-- A book of size 1 forgets an order that was cancelled. -/
theorem init_forgets_iff_cancelled : ∃ b₀ b : FastBitsetOrderBook, new.init 1 = .ok b₀ ∧
    Run Step b₀ [.submit 0 5 10 true, .cancel 0] b ∧ b.Forgets 1 := by
  have hok : (new.init 1 >>= fun b₀ => b₀.exec 10 (.submit 0 5 10 true) >>= fun b₁ => b₁.exec 10 (.cancel 0) >>= fun b =>
      pure (b₀, b₁, b)).isOk = true := by
    decide +kernel
  obtain ⟨b₀, h₀, h⟩ := bind_eq_ok.1 (eq_ok_value (new, new, new) hok)
  obtain ⟨b₁, h₁, h⟩ := bind_eq_ok.1 h
  obtain ⟨b, h₂, h⟩ := bind_eq_ok.1 h
  have hentry : b.keptSlot 0 = NULL_IDX := by
    rw [show b = _ from congrArg (fun t => t.2.2) (Except.ok.inj h)]
    decide +kernel
  refine ⟨b₀, b, h₀, (Run.single ⟨10, h₁⟩).snoc ⟨10, h₂⟩, ((init_forgets_iff Nat.one_pos).1 b).2 ⟨?_, ?_, ?_⟩⟩
  · intro id hid
    obtain rfl : id = 0 := by omega
    exact Or.inr ⟨rfl, hentry⟩
  · intro hzero
    cases hentry.symm.trans hzero
  · intro i hle hlt
    omega

/-- Neither book forgets an order that rests: its id still leads to its slot. -/
theorem init_remembers :
    (∃ b₀ b b₁ : FastBitsetOrderBook, new.init 1 = .ok b₀ ∧ b₀.Admits 1 (.submit 0 5 10 true) ∧
      b₀.Step (.submit 0 5 10 true) b ∧ b.init 1 = .ok b₁ ∧ b₀.getQuantity 0 = .ok 0 ∧ b₁.getQuantity 0 = .ok 10 ∧
      ¬ b.Forgets 1) ∧
    ∃ f₀ f f₁ : FastOrderBook, Ladder.new.init 1 = .ok f₀ ∧ Ladder.Admits f₀ 1 (.submit 0 5 10 true) ∧
      FastOrderBook.Step f₀ (.submit 0 5 10 true) f ∧ Ladder.init f 1 = .ok f₁ ∧ f₀.getQuantity 0 = .ok 0 ∧
      f₁.getQuantity 0 = .ok 10 ∧ ¬ FastOrderBook.Forgets f 1 := by
  have hok : (Ladder.new.init 1 >>= fun f₀ => FastOrderBook.exec 10 f₀ (.submit 0 5 10 true) >>= fun f => f.init 1 >>=
      fun f₁ => pure (f₀, f, f₁)).isOk = true := by
    decide +kernel
  obtain ⟨f₀, h₀, h⟩ := bind_eq_ok.1 (eq_ok_value (Ladder.new, Ladder.new, Ladder.new) hok)
  obtain ⟨f, hstep, h⟩ := bind_eq_ok.1 h
  obtain ⟨f₁, h₁, h⟩ := bind_eq_ok.1 h
  have hqty₁ : f₁.getQuantity 0 = .ok 10 := by
    rw [show f₁ = _ from congrArg (fun t => t.2.2) (Except.ok.inj h)]
    decide +kernel
  have hvacant := vacant_of_forgettable (new_forgettable Nat.one_pos) (initialised_of_eq_ok h₀)
  have hadmits : Ladder.Admits f₀ 1 (.submit 0 5 10 true) := ⟨by decide, hvacant.not_resting 0, by decide⟩
  have hnot : ¬ Ladder.Forgettable f 1 := by
    intro hf
    cases ((vacant_of_forgettable hf (initialised_of_eq_ok h₁)).getQuantity 0).symm.trans hqty₁
  have hinit : new.init 1 = .ok _ := bind_eq_ok.2 ⟨f₀, h₀, rfl⟩
  obtain ⟨b, hstep', rfl, _⟩ := step_simulated (Indexed.init hinit) (show FastOrderBook.Step f₀ _ f from ⟨10, hstep⟩)
  exact ⟨⟨_, b, _, hinit, hadmits, hstep', bind_eq_ok.2 ⟨f₁, h₁, rfl⟩, hvacant.getQuantity 0, hqty₁,
      fun hb => hnot ((forgets_iff Nat.one_pos).1 hb)⟩,
    f₀, b.toLadder, f₁, h₀, hadmits, ⟨10, hstep⟩, h₁, hvacant.getQuantity 0, hqty₁,
      fun hf => hnot ((FastOrderBook.forgets_iff Nat.one_pos).1 hf)⟩

end FastBitsetOrderBook

end Lobook
