import Lobook.Engine.Liveness

/-!
# The latencies that the server records

A row has two differences of readings of the clock: from the stamp of a message until it was popped, and until it was
handled.  The readings have type `uint64_t` and the differences wrap.  With a clock that never runs backwards they are
the real differences all the same: a message is stamped before it is popped, popped before it is handled, and handled
before the next one is popped (`server_latencies`).  The stamps are at least the pacing interval apart.
-/

namespace Lobook

open SPSCQueue

namespace Server

variable {Q : QueueT} {c : Nat} {A : Args} {D : Q.Delivery c} {s : Server Q} {n : Nat}

theorem elapsed_of_le {now timestamp : Nat} (hle : timestamp ≤ now) (hlt : now < 2 ^ 64) :
    timestamp + elapsed now timestamp = now := by
  unfold elapsed wrap
  omega

/-- The clock never runs backwards, and its readings fit in a `uint64_t`. -/
structure Steady (A : Args) : Prop where
  mono : ∀ n, A.clock n ≤ A.clock (n + 1)
  fits : ∀ n, A.clock n < 2 ^ 64

/-! ### The pacing of the stamps -/

/-- The stamps are past, and at least the pacing interval apart. -/
structure Spaced (A : Args) (n : Nat) (s : Server Q) : Prop where
  past : ∀ m ∈ s.sent, m.timestamp ≤ A.clock n
  pushing : ∀ i msg, s.network = .pushing i msg → s.sent.getLast? = some msg
  pacing : ∀ i w, s.network = .pacing i w →
    ∃ msg, s.sent.getLast? = some msg ∧ w = wrap (msg.timestamp + A.pacingNs)
  stamping : ∀ i msg, s.network = .stamping i → s.sent.getLast? = some msg →
    wrap (msg.timestamp + A.pacingNs) ≤ A.clock n
  waiting : s.network = .waiting → s.sent = []
  apart : ∀ (i : Nat) (m m' : OrderMessage), s.sent[i]? = some m → s.sent[i + 1]? = some m' → m'.type ≠ .SHUTDOWN →
    wrap (m.timestamp + A.pacingNs) ≤ m'.timestamp

section Pacing

/-- Two neighbours in a list that has been extended. -/
private theorem neighbours_snoc {α : Type} {l : List α} {x a b : α} {i : Nat} (ha : (l ++ [x])[i]? = some a)
    (hb : (l ++ [x])[i + 1]? = some b) :
    (l[i]? = some a ∧ l[i + 1]? = some b) ∨ (l.getLast? = some a ∧ b = x) := by
  have hlt : i + 1 < (l ++ [x]).length := (List.getElem?_eq_some_iff.1 hb).1
  rw [List.length_append, List.length_singleton] at hlt
  rcases Nat.lt_or_eq_of_le (Nat.le_of_lt_succ hlt) with hin | hlast
  · rw [List.getElem?_append_left (by omega)] at ha
    rw [List.getElem?_append_left hin] at hb
    exact Or.inl ⟨ha, hb⟩
  · rw [List.getElem?_append_left (by omega)] at ha
    rw [List.getElem?_append_right (by omega), hlast, Nat.sub_self] at hb
    refine Or.inr ⟨?_, (Option.some.inj hb).symm⟩
    rw [List.getLast?_eq_getElem?, ← hlast]
    exact ha

theorem Spaced.mono (hclock : Steady A) (h : s.Spaced A n) : s.Spaced A (n + 1) :=
  { h with
    past := fun m hm => (h.past m hm).trans (hclock.mono n)
    stamping := fun i msg hn hl => (h.stamping i msg hn hl).trans (hclock.mono n) }

theorem Spaced.networkTurn (h : s.Spaced A n) : (networkTurn A n s).Spaced A n := by
  unfold Server.networkTurn
  split
  · rename_i hn
    split
    · refine { h with pushing := ?_, pacing := ?_, stamping := ?_, waiting := ?_ }
      · intro i msg e; cases e
      · intro i w e; cases e
      · intro i msg _ hl
        rw [h.waiting hn] at hl
        cases hl
      · intro e; cases e
    · exact h
  · rename_i i hn
    split
    · refine { h with pushing := ?_, pacing := ?_, stamping := ?_, waiting := ?_ }
      · intro i msg e; cases e
      · intro i w e; cases e
      · intro i msg e; cases e
      · intro e; cases e
    · -- the new stamp is the present reading
      rename_i msg _
      refine ⟨?_, ?_, ?_, ?_, ?_, ?_⟩
      · intro m hm
        rcases List.mem_append.1 hm with hm | hm
        · exact h.past m hm
        · rw [List.mem_singleton.1 hm]
      · intro i msg e
        cases e
        simp
      · intro i w e; cases e
      · intro i msg e; cases e
      · intro e; cases e
      · intro j m m' hm hm' htype
        rcases neighbours_snoc hm hm' with ⟨hm, hm'⟩ | ⟨hm, rfl⟩
        · exact h.apart j m m' hm hm' htype
        · exact h.stamping i m hn hm
  · rename_i i msg hn
    have hlast := h.pushing i msg hn
    split
    · refine { h with pushing := ?_, pacing := ?_, stamping := ?_, waiting := ?_ }
      · intro i msg e; cases e
      · intro i w e
        cases e
        exact ⟨msg, hlast, rfl⟩
      · intro i msg e; cases e
      · intro e; cases e
    · refine { h with pushing := ?_, pacing := ?_, stamping := ?_, waiting := ?_ }
      · intro i msg e
        cases e
        exact hlast
      · intro i w e; cases e
      · intro i msg e; cases e
      · intro e; cases e
  · -- the pacing loop ends when the interval is over
    rename_i i w hn
    obtain ⟨msg, hlast, rfl⟩ := h.pacing i w hn
    split
    · rename_i hover
      refine { h with pushing := ?_, pacing := ?_, stamping := ?_, waiting := ?_ }
      · intro i msg e; cases e
      · intro i w e; cases e
      · intro j msg' _ hl
        rw [hlast] at hl
        cases hl
        exact hover
      · intro e; cases e
    · exact h
  · exact h

theorem Spaced.mainTurn (h : s.Spaced A n) : (mainTurn s).Spaced A n := by
  unfold Server.mainTurn
  split
  · split
    · -- `SHUTDOWN` has no stamp
      rename_i hn
      refine ⟨?_, ?_, ?_, ?_, ?_, ?_⟩
      · intro m hm
        rcases List.mem_append.1 hm with hm | hm
        · exact h.past m hm
        · rw [List.mem_singleton.1 hm]
          exact Nat.zero_le _
      · intro i msg e
        rw [hn] at e
        cases e
      · intro i w e
        rw [hn] at e
        cases e
      · intro i msg e
        rw [hn] at e
        cases e
      · intro e
        rw [hn] at e
        cases e
      · intro i m m' hm hm' htype
        rcases neighbours_snoc hm hm' with ⟨hm, hm'⟩ | ⟨_, rfl⟩
        · exact h.apart i m m' hm hm' htype
        · exact absurd rfl htype
    · exact h
  · exact { h with }
  · split
    · exact { h with }
    · exact h
  · exact h

theorem Spaced.engineTurn (h : s.Spaced A n) : (engineTurn A n s).Spaced A n := by
  unfold Server.engineTurn
  split
  · split <;> exact { h with }
  · exact { h with }
  · exact { h with }
  · split <;> exact { h with }
  · split <;> exact { h with }
  · exact { h with }
  · exact h
  · exact h

theorem Spaced.turn (hclock : Steady A) (h : s.Spaced A n) (t : Thread) : (turn A n t s).Spaced A (n + 1) := by
  apply Spaced.mono hclock
  cases t with
  | network => exact h.networkTurn
  | main => exact h.mainTurn
  | engine => exact h.engineTurn
  | wakeup => exact { h with }

end Pacing

/-! ### The rows -/

/-- The time at which a row ends, for the message it is about. -/
def EndsBy (s : Server Q) (t : Nat) : Prop :=
  ∀ (i l : Nat) (m : OrderMessage), s.latencies[i]? = some l → s.handled[i]? = some m → m.timestamp + l ≤ t

structure Rows (A : Args) (n : Nat) (s : Server Q) : Prop where
  handling : ∀ msg t, s.engine = .handling msg t → msg.timestamp ≤ t ∧ t ≤ A.clock n ∧ s.EndsBy t
  recording : ∀ msg t, s.engine = .recording msg t → msg.timestamp ≤ t ∧ t ≤ A.clock n ∧ s.EndsBy t ∧
    s.handled[s.latencies.length]? = some msg
  past : s.EndsBy (A.clock n)
  within : ∀ i l q : Nat, s.latencies[i]? = some l → s.queueLatencies[i]? = some q → q ≤ l
  order : ∀ (i l q : Nat) (m m' : OrderMessage), s.latencies[i]? = some l → s.handled[i]? = some m →
    s.queueLatencies[i + 1]? = some q → s.handled[i + 1]? = some m' → m.timestamp + l ≤ m'.timestamp + q

section RowLemmas

theorem Rows.mono (hclock : Steady A) (h : s.Rows A n) : s.Rows A (n + 1) :=
  { h with
    handling := fun msg t e => ⟨(h.handling msg t e).1, (h.handling msg t e).2.1.trans (hclock.mono n),
      (h.handling msg t e).2.2⟩
    recording := fun msg t e => ⟨(h.recording msg t e).1, (h.recording msg t e).2.1.trans (hclock.mono n),
      (h.recording msg t e).2.2⟩
    past := fun i l m hl hm => (h.past i l m hl hm).trans (hclock.mono n) }

/-- The thread goes on with the same rows. -/
theorem Rows.goto (h : s.Rows A n) {s' : Server Q} (hhandled : s'.handled = s.handled)
    (hlat : s'.latencies = s.latencies) (hqueue : s'.queueLatencies = s.queueLatencies)
    (hhandling : ∀ msg t, s'.engine ≠ .handling msg t) (hrecording : ∀ msg t, s'.engine ≠ .recording msg t) :
    s'.Rows A n where
  handling msg t e := absurd e (hhandling msg t)
  recording msg t e := absurd e (hrecording msg t)
  past i l m := by rw [hlat, hhandled]; exact h.past i l m
  within i l q := by rw [hlat, hqueue]; exact h.within i l q
  order i l q m m' := by rw [hlat, hhandled, hqueue]; exact h.order i l q m m'

/-- An entry of a list that has been extended. -/
private theorem getElem?_snoc {α : Type} {l : List α} {x a : α} {i : Nat} (ha : (l ++ [x])[i]? = some a) :
    (i < l.length ∧ l[i]? = some a) ∨ (i = l.length ∧ a = x) := by
  have hlt : i < (l ++ [x]).length := (List.getElem?_eq_some_iff.1 ha).1
  rw [List.length_append, List.length_singleton] at hlt
  rcases Nat.lt_or_eq_of_le (Nat.le_of_lt_succ hlt) with hin | hlast
  · rw [List.getElem?_append_left hin] at ha
    exact Or.inl ⟨hin, ha⟩
  · rw [List.getElem?_append_right (by omega), hlast, Nat.sub_self] at ha
    exact Or.inr ⟨hlast, (Option.some.inj ha).symm⟩

/-- The entries that have a row are not affected by the message that is handled next. -/
theorem getElem?_handled {msg : OrderMessage} {i : Nat} (hi : i < s.latencies.length)
    (hle : s.latencies.length ≤ s.handled.length) : (s.handled ++ [msg])[i]? = s.handled[i]? :=
  List.getElem?_append_left (by omega)

theorem Rows.engineTurn (hclock : Steady A) (hs : s.Sound A D) (hp : s.Spaced A n) (h : s.Rows A n) :
    (engineTurn A n s).Rows A n := by
  have horder := D.order hs.queue
  have hle := hs.engine.rows_le
  have hcols := hs.engine.columns
  unfold Server.engineTurn
  split
  · split
    · exact h.goto rfl rfl rfl (by simp) (by simp)
    · exact h.goto rfl rfl rfl (by simp) (by simp)
  · exact h.goto rfl rfl rfl (by simp) (by simp)
  · split
    · exact h.goto rfl rfl rfl (by simp) (by simp)
    · exact h.goto rfl rfl rfl (by simp) (by simp)
  · -- a message popped was stamped before
    rename_i msg hpc
    split
    · exact h.goto rfl rfl rfl (by simp) (by simp)
    · have hmem : msg ∈ s.sent := horder.subset (by simp [hpc, Engine.inHand])
      refine { h with handling := ?_, recording := ?_ }
      · intro msg' t e
        cases e
        exact ⟨hp.past msg hmem, Nat.le_refl _, h.past⟩
      · intro msg' t e
        cases e
  · rename_i msg t hpc
    have halive : s.engine.Alive := by rw [hpc]; trivial
    have hrows := hs.engine.rows halive
    rw [hpc] at hrows
    change s.latencies.length + 0 = s.handled.length at hrows
    obtain ⟨h1, h2, h3⟩ := h.handling msg t hpc
    have hends : ∀ t', s.EndsBy t' → ∀ (i l : Nat) (m : OrderMessage), s.latencies[i]? = some l →
        (s.handled ++ [msg])[i]? = some m → m.timestamp + l ≤ t' := by
      intro t' hends i l m hl hm
      have hi : i < s.latencies.length := (List.getElem?_eq_some_iff.1 hl).1
      rw [getElem?_handled hi hle] at hm
      exact hends i l m hl hm
    have hnext : ∀ (i l q : Nat) (m m' : OrderMessage), s.latencies[i]? = some l →
        (s.handled ++ [msg])[i]? = some m → s.queueLatencies[i + 1]? = some q → (s.handled ++ [msg])[i + 1]? = some m' →
        m.timestamp + l ≤ m'.timestamp + q := by
      intro i l q m m' hl hm hq hm'
      have hi : i < s.latencies.length := (List.getElem?_eq_some_iff.1 hl).1
      have hi' : i + 1 < s.queueLatencies.length := (List.getElem?_eq_some_iff.1 hq).1
      rw [getElem?_handled hi hle] at hm
      rw [getElem?_handled (by omega) hle] at hm'
      exact h.order i l q m m' hl hm hq hm'
    split
    · refine ⟨?_, ?_, hends _ h.past, h.within, hnext⟩
      · intro msg' t' e; cases e
      · intro msg' t' e
        cases e
        refine ⟨h1, h2, hends _ h3, ?_⟩
        show (s.handled ++ [msg])[s.latencies.length]? = some msg
        rw [List.getElem?_append_right (by omega), ← hrows, Nat.add_zero, Nat.sub_self]
        rfl
    · refine ⟨?_, ?_, hends _ h.past, h.within, hnext⟩
      · intro msg' t' e; cases e
      · intro msg' t' e; cases e
  · -- the new row ends now, and began before
    rename_i msg t hpc
    obtain ⟨h1, h2, h3, h4⟩ := h.recording msg t hpc
    have hnow := elapsed_of_le (Nat.le_trans h1 h2) (hclock.fits n)
    have hpop := elapsed_of_le h1 (Nat.lt_of_le_of_lt h2 (hclock.fits n))
    refine ⟨?_, ?_, ?_, ?_, ?_⟩
    · intro msg' t' e; cases e
    · intro msg' t' e; cases e
    · intro i l m hl hm
      rcases getElem?_snoc hl with ⟨_, hl⟩ | ⟨rfl, rfl⟩
      · exact h.past i l m hl hm
      · change s.handled[s.latencies.length]? = some m at hm
        rw [h4] at hm
        cases hm
        exact Nat.le_of_eq hnow
    · intro i l q hl hq
      rcases getElem?_snoc hl with ⟨hi, hl⟩ | ⟨hi, rfl⟩
      · rcases getElem?_snoc hq with ⟨_, hq⟩ | ⟨hi', _⟩
        · exact h.within i l q hl hq
        · omega
      · rcases getElem?_snoc hq with ⟨hi', _⟩ | ⟨_, rfl⟩
        · omega
        · omega
    · intro i l q m m' hl hm hq hm'
      rcases getElem?_snoc hq with ⟨hi', hq⟩ | ⟨hi', rfl⟩
      · rcases getElem?_snoc hl with ⟨_, hl⟩ | ⟨hi, _⟩
        · exact h.order i l q m m' hl hm hq hm'
        · omega
      · rcases getElem?_snoc hl with ⟨_, hl⟩ | ⟨hi, _⟩
        · change s.handled[i + 1]? = some m' at hm'
          rw [hi', hcols, h4] at hm'
          cases hm'
          rw [hpop]
          exact h3 i l m hl hm
        · omega
  · exact h
  · exact h

theorem Rows.turn (hclock : Steady A) (hs : s.Sound A D) (hp : s.Spaced A n) (h : s.Rows A n) (t : Thread) :
    (turn A n t s).Rows A (n + 1) := by
  apply Rows.mono hclock
  cases t with
  | network =>
    show (networkTurn A n s).Rows A n
    unfold networkTurn
    split
    · split <;> exact { h with }
    · split <;> exact { h with }
    · exact { h with }
    · split <;> exact { h with }
    · exact h
  | main =>
    show (mainTurn s).Rows A n
    unfold mainTurn
    split
    · split <;> exact { h with }
    · exact { h with }
    · split <;> exact { h with }
    · exact h
  | engine => exact h.engineTurn hclock hs hp
  | wakeup => exact { h with }

end RowLemmas

theorem timed_at (D : Q.Delivery c) (hcap : A.workload.length < c) (hw : ∀ m ∈ A.workload, m.type ≠ .SHUTDOWN)
    (hclock : Steady A) (sched : Nat → Thread) (n : Nat) :
    (at_ Q A sched n).Sound A D ∧ (at_ Q A sched n).Spaced A n ∧ (at_ Q A sched n).Rows A n := by
  refine Fairness.stateAt_invariant (I := fun n (s : Server Q) => s.Sound A D ∧ s.Spaced A n ∧ s.Rows A n) ?_ ?_ n
  · refine ⟨sound_init D.new, ⟨?_, ?_, ?_, ?_, fun _ => rfl, ?_⟩, ⟨?_, ?_, ?_, ?_, ?_⟩⟩ <;> simp [init, EndsBy]
  · rintro n t s ⟨hs, hp, hr⟩
    exact ⟨hs.turn hcap hw t, hp.turn hclock t, hr.turn hclock hs hp t⟩

end Server

end Lobook
