import Lobook.Lib.Decimal
import Lobook.Engine.Workload

/-!
# The command line (`server.cpp`, `cpu_pinning.h`)

`parse_args` goes through the arguments and writes each setting to its field, so the last setting of each kind counts,
and the first argument that is none ends the program.  `main` then picks the queue.  What `parse_args` does with
arguments as a user writes them is said by `parse_args_settings`; `configured_bench_core` reads an environment variable
in a similar way, but the conversion to `int` can make the core negative (`core_exact`).
-/

namespace Lobook

open Decimal

namespace CommandLine

/-- The exceptions of `std::stoull`. -/
inductive Thrown where
  | invalidArgument
  | outOfRange
  deriving DecidableEq

/-- `std::stoull`: a sign is taken modulo `2^64`, and the text behind the number is ignored. -/
def stoull (s : List Char) : Except Thrown Nat :=
  match scan s with
  | none => .error .invalidArgument
  | some r =>
    if r.magnitude < 2 ^ 64 then .ok (if r.negative then (2 ^ 64 - r.magnitude) % 2 ^ 64 else r.magnitude)
    else .error .outOfRange

structure Args where
  queueMode : List Char
  pacingNs : Nat
  workload : Nat
  dumpLatencies : List Char
  deriving DecidableEq

/-- The values that the fields of `Args` start with. -/
def Args.default : Args := ⟨"cached".toList, 1000, 100000, []⟩

/-- How `parse_args` ends otherwise: the program exits, a message is printed and it returns false, or `std::stoull`
throws. -/
inductive Refusal where
  | exit
  | message (text : List Char)
  | thrown (e : Thrown)
  deriving DecidableEq

def number (s : List Char) : Except Refusal Nat := (stoull s).mapError .thrown

/-- The body of the loop of `parse_args`. -/
def parseArg (out : Args) (a : List Char) : Except Refusal Args :=
  if a = "--help".toList ∨ a = "-h".toList then .error .exit
  else if "--queue=".toList <+: a then .ok { out with queueMode := a.drop 8 }
  else if "--pacing-ns=".toList <+: a then do
    let n ← number (a.drop 12)
    return { out with pacingNs := n }
  else if "--workload=".toList <+: a then do
    let n ← number (a.drop 11)
    return { out with workload := n }
  else if "--dump-latencies=".toList <+: a then .ok { out with dumpLatencies := a.drop 17 }
  else .error (.message ("unknown argument: ".toList ++ a))

/-- The test at the end of `parse_args`. -/
def checkMode (out : Args) : Except Refusal Args :=
  if out.queueMode ≠ "cached".toList ∧ out.queueMode ≠ "uncached".toList ∧ out.queueMode ≠ "naive".toList then
    .error (.message ("invalid --queue value: ".toList ++ out.queueMode))
  else .ok out

/-- `parse_args` on the arguments behind the name of the program. -/
def parseArgs (argv : List (List Char)) : Except Refusal Args := do
  let out ← argv.foldlM parseArg Args.default
  checkMode out

/-- The queue that `main` picks. -/
def queueOf (queueMode : List Char) : Server.QueueMode :=
  if queueMode = "cached".toList then .cached
  else if queueMode = "uncached".toList then .uncached
  else .naive

/-! ### Settings -/

/-- What one argument asks for. -/
inductive Setting where
  | queue (mode : List Char)
  | pacing (n : Nat)
  | workload (n : Nat)
  | dump (file : List Char)

namespace Setting

/-- The setting as a user writes it. -/
def render : Setting → List Char
  | .queue mode => "--queue=".toList ++ mode
  | .pacing n => "--pacing-ns=".toList ++ Nat.toDigits 10 n
  | .workload n => "--workload=".toList ++ Nat.toDigits 10 n
  | .dump file => "--dump-latencies=".toList ++ file

/-- Its number is one of type `uint64_t`. -/
def Fits : Setting → Prop
  | .pacing n => n < 2 ^ 64
  | .workload n => n < 2 ^ 64
  | _ => True

def write (out : Args) : Setting → Args
  | .queue mode => { out with queueMode := mode }
  | .pacing n => { out with pacingNs := n }
  | .workload n => { out with workload := n }
  | .dump file => { out with dumpLatencies := file }

def queue? : Setting → Option (List Char)
  | .queue mode => some mode
  | _ => none

def pacing? : Setting → Option Nat
  | .pacing n => some n
  | _ => none

def workload? : Setting → Option Nat
  | .workload n => some n
  | _ => none

def dump? : Setting → Option (List Char)
  | .dump file => some file
  | _ => none

end Setting

/-- The last setting of a kind. -/
def last {α : Type} (kind : Setting → Option α) (settings : List Setting) (d : α) : α :=
  ((settings.filterMap kind).getLast?).getD d

/-- The last setting of each kind, or the default. -/
def settled (settings : List Setting) : Args where
  queueMode := last Setting.queue? settings Args.default.queueMode
  pacingNs := last Setting.pacing? settings Args.default.pacingNs
  workload := last Setting.workload? settings Args.default.workload
  dumpLatencies := last Setting.dump? settings Args.default.dumpLatencies

theorem last_snoc {α : Type} (kind : Setting → Option α) (settings : List Setting) (s : Setting) (d : α) :
    last kind (settings ++ [s]) d = (kind s).getD (last kind settings d) := by
  unfold last
  rw [List.filterMap_append]
  cases h : kind s with
  | none => simp [h]
  | some a => simp [h]

/-- Writing the settings one after the other leaves the last of each kind. -/
theorem write_all (settings : List Setting) : settings.foldl Setting.write Args.default = settled settings := by
  induction settings using List.reverseRecOn with
  | nil => rfl
  | append_singleton settings s ih =>
    rw [List.foldl_append, ih]
    simp only [settled, last_snoc]
    cases s <;> rfl

/-! ### One argument -/

/-- The argument is a setting. -/
def Reads (a : List Char) (s : Setting) : Prop := ∀ out, parseArg out a = .ok (s.write out)

/-- The argument ends the program. -/
def Refuses (a : List Char) (r : Refusal) : Prop := ∀ out, parseArg out a = .error r

theorem stoull_toDigits {n : Nat} (hn : n < 2 ^ 64) : stoull (Nat.toDigits 10 n) = .ok n := by
  have hends : Ends [] := fun _ h => by cases h
  have hscan := scan_toDigits n hends
  rw [List.append_nil] at hscan
  simp only [stoull, hscan, if_pos hn]
  rfl

/-- A setting is read as it has been written. -/
theorem reads_render {s : Setting} (h : s.Fits) : Reads s.render s := by
  intro out
  cases s with
  | queue mode =>
    have hhelp : ¬ ("--queue=".toList ++ mode = "--help".toList ∨ "--queue=".toList ++ mode = "-h".toList) := by simp
    show parseArg out ("--queue=".toList ++ mode) = .ok { out with queueMode := mode }
    rw [parseArg, if_neg hhelp, if_pos (List.prefix_append _ _), List.drop_left' (by rfl)]
  | pacing n =>
    have hhelp : ¬ ("--pacing-ns=".toList ++ Nat.toDigits 10 n = "--help".toList ∨
        "--pacing-ns=".toList ++ Nat.toDigits 10 n = "-h".toList) := by simp
    have hqueue : ¬ "--queue=".toList <+: "--pacing-ns=".toList ++ Nat.toDigits 10 n := by simp
    show parseArg out ("--pacing-ns=".toList ++ Nat.toDigits 10 n) = .ok { out with pacingNs := n }
    rw [parseArg, if_neg hhelp, if_neg hqueue, if_pos (List.prefix_append _ _), List.drop_left' (by rfl), number,
      stoull_toDigits h]
    rfl
  | workload n =>
    have hhelp : ¬ ("--workload=".toList ++ Nat.toDigits 10 n = "--help".toList ∨
        "--workload=".toList ++ Nat.toDigits 10 n = "-h".toList) := by simp
    have hqueue : ¬ "--queue=".toList <+: "--workload=".toList ++ Nat.toDigits 10 n := by simp
    have hpacing : ¬ "--pacing-ns=".toList <+: "--workload=".toList ++ Nat.toDigits 10 n := by simp
    show parseArg out ("--workload=".toList ++ Nat.toDigits 10 n) = .ok { out with workload := n }
    rw [parseArg, if_neg hhelp, if_neg hqueue, if_neg hpacing, if_pos (List.prefix_append _ _),
      List.drop_left' (by rfl), number, stoull_toDigits h]
    rfl
  | dump file =>
    have hhelp : ¬ ("--dump-latencies=".toList ++ file = "--help".toList ∨
        "--dump-latencies=".toList ++ file = "-h".toList) := by simp
    have hqueue : ¬ "--queue=".toList <+: "--dump-latencies=".toList ++ file := by simp
    have hpacing : ¬ "--pacing-ns=".toList <+: "--dump-latencies=".toList ++ file := by simp
    have hworkload : ¬ "--workload=".toList <+: "--dump-latencies=".toList ++ file := by simp
    show parseArg out ("--dump-latencies=".toList ++ file) = .ok { out with dumpLatencies := file }
    rw [parseArg, if_neg hhelp, if_neg hqueue, if_neg hpacing, if_neg hworkload,
      if_pos (List.prefix_append _ _), List.drop_left' (by rfl)]

theorem reads_or_refuses (a : List Char) : (∃ s, Reads a s) ∨ ∃ r, Refuses a r := by
  by_cases hhelp : a = "--help".toList ∨ a = "-h".toList
  · exact Or.inr ⟨.exit, fun out => if_pos hhelp⟩
  by_cases hqueue : "--queue=".toList <+: a
  · refine Or.inl ⟨.queue (a.drop 8), fun out => ?_⟩
    rw [parseArg, if_neg hhelp, if_pos hqueue]
    rfl
  by_cases hpacing : "--pacing-ns=".toList <+: a
  · cases hn : number (a.drop 12) with
    | ok n =>
      refine Or.inl ⟨.pacing n, fun out => ?_⟩
      rw [parseArg, if_neg hhelp, if_neg hqueue, if_pos hpacing, hn]
      rfl
    | error r =>
      refine Or.inr ⟨r, fun out => ?_⟩
      rw [parseArg, if_neg hhelp, if_neg hqueue, if_pos hpacing, hn]
      rfl
  by_cases hworkload : "--workload=".toList <+: a
  · cases hn : number (a.drop 11) with
    | ok n =>
      refine Or.inl ⟨.workload n, fun out => ?_⟩
      rw [parseArg, if_neg hhelp, if_neg hqueue, if_neg hpacing, if_pos hworkload, hn]
      rfl
    | error r =>
      refine Or.inr ⟨r, fun out => ?_⟩
      rw [parseArg, if_neg hhelp, if_neg hqueue, if_neg hpacing, if_pos hworkload, hn]
      rfl
  by_cases hdump : "--dump-latencies=".toList <+: a
  · refine Or.inl ⟨.dump (a.drop 17), fun out => ?_⟩
    rw [parseArg, if_neg hhelp, if_neg hqueue, if_neg hpacing, if_neg hworkload, if_pos hdump]
    rfl
  · refine Or.inr ⟨.message ("unknown argument: ".toList ++ a), fun out => ?_⟩
    rw [parseArg, if_neg hhelp, if_neg hqueue, if_neg hpacing, if_neg hworkload, if_neg hdump]

/-! ### All arguments -/

variable {argv before after : List (List Char)} {a : List Char} {settings : List Setting} {r : Refusal} {out : Args}

theorem foldlM_reads (h : List.Forall₂ Reads argv settings) (out : Args) :
    argv.foldlM parseArg out = .ok (settings.foldl Setting.write out) := by
  induction h generalizing out with
  | nil => rfl
  | @cons a s argv settings ha _ ih =>
    rw [List.foldlM_cons, ha out]
    exact ih (s.write out)

theorem foldlM_refuses (h : List.Forall₂ Reads before settings) (ha : Refuses a r) (out : Args) :
    (before ++ a :: after).foldlM parseArg out = .error r := by
  rw [List.foldlM_append, foldlM_reads h]
  show (a :: after).foldlM parseArg _ = _
  rw [List.foldlM_cons, ha]
  rfl

/-- Either all arguments are settings, or there is a first one that is none. -/
theorem split_argv (argv : List (List Char)) : (∃ settings, List.Forall₂ Reads argv settings) ∨
    ∃ before a after settings r, argv = before ++ a :: after ∧ List.Forall₂ Reads before settings ∧ Refuses a r := by
  induction argv with
  | nil => exact Or.inl ⟨[], List.Forall₂.nil⟩
  | cons a argv ih =>
    rcases reads_or_refuses a with ⟨s, ha⟩ | ⟨r, ha⟩
    · rcases ih with ⟨settings, h⟩ | ⟨before, a', after, settings, r, rfl, h, ha'⟩
      · exact Or.inl ⟨s :: settings, List.Forall₂.cons ha h⟩
      · exact Or.inr ⟨a :: before, a', after, s :: settings, r, rfl, List.Forall₂.cons ha h, ha'⟩
    · exact Or.inr ⟨[], a, argv, [], r, rfl, List.Forall₂.nil, ha⟩

theorem parseArgs_reads (h : List.Forall₂ Reads argv settings) : parseArgs argv = checkMode (settled settings) := by
  rw [parseArgs, foldlM_reads h, write_all]
  rfl

theorem parseArgs_refuses (h : List.Forall₂ Reads before settings) (ha : Refuses a r) :
    parseArgs (before ++ a :: after) = .error r := by
  rw [parseArgs, foldlM_refuses h ha]
  rfl

/-- The name of the mode on the command line. -/
def modeName : Server.QueueMode → List Char
  | .cached => "cached".toList
  | .uncached => "uncached".toList
  | .naive => "naive".toList

/-- What passes the test at the end is the name of the queue that `main` picks. -/
theorem checkMode_eq_ok {out' : Args} :
    checkMode out = .ok out' ↔ out' = out ∧ modeName (queueOf out.queueMode) = out.queueMode := by
  unfold checkMode queueOf
  by_cases hcached : out.queueMode = "cached".toList
  · rw [if_neg fun h => h.1 hcached, if_pos hcached]
    exact ⟨fun h => ⟨(Except.ok.inj h).symm, hcached.symm⟩, fun h => congrArg Except.ok h.1.symm⟩
  by_cases huncached : out.queueMode = "uncached".toList
  · rw [if_neg fun h => h.2.1 huncached, if_neg hcached, if_pos huncached]
    exact ⟨fun h => ⟨(Except.ok.inj h).symm, huncached.symm⟩, fun h => congrArg Except.ok h.1.symm⟩
  by_cases hnaive : out.queueMode = "naive".toList
  · rw [if_neg fun h => h.2.2 hnaive, if_neg hcached, if_neg huncached]
    exact ⟨fun h => ⟨(Except.ok.inj h).symm, hnaive.symm⟩, fun h => congrArg Except.ok h.1.symm⟩
  · rw [if_pos ⟨hcached, huncached, hnaive⟩, if_neg hcached, if_neg huncached]
    exact ⟨fun h => (by cases h), fun h => absurd h.2.symm hnaive⟩

example : parseArgs ["--workload=5".toList, "--queue=naive".toList, "--workload=+7x".toList] =
    .ok ⟨"naive".toList, 1000, 7, []⟩ := by decide

/-! ### The cores -/

/-- `std::strtol` in base 10: the number, as far as it has type `long`, and the text behind it. -/
def strtol (s : List Char) : Int × List Char :=
  match scan s with
  | none => (0, s)
  | some r => (max (-2 ^ 63) (min (2 ^ 63 - 1) (if r.negative then -r.magnitude else r.magnitude)), r.rest)

/-- `configured_bench_core` with the value of the variable; the last cast keeps the lower 32 bits. -/
def configuredBenchCore (value : Option (List Char)) (defaultCore : Int) : Int :=
  match value with
  | none => defaultCore
  | some s =>
    if s = [] then defaultCore
    else
      let (parsed, rest) := strtol s
      if rest = s ∨ rest ≠ [] ∨ parsed < 0 then defaultCore else parsed.bmod (2 ^ 32)

/-- The text is a number and nothing else, and it is not negative. -/
def Names (s : List Char) (n : Nat) : Prop := ∃ negative, scan s = some ⟨negative, n, []⟩ ∧ (negative = true → n = 0)

theorem Names.ne_nil {s : List Char} {n : Nat} (h : Names s n) : s ≠ [] := by
  rintro rfl
  obtain ⟨negative, hscan, _⟩ := h
  cases hscan

theorem strtol_of_names {s : List Char} {n : Nat} (h : Names s n) : strtol s = (((min n (2 ^ 63 - 1) : Nat) : Int), []) := by
  obtain ⟨negative, hscan, hzero⟩ := h
  simp only [strtol, hscan]
  cases negative with
  | false =>
    rw [if_neg (by decide)]
    congr 1
    omega
  | true =>
    obtain rfl := hzero rfl
    rfl

/-- What `strtol` reads as a number that is not negative, with nothing behind it, names this number. -/
theorem names_of_strtol {s : List Char} (hread : (strtol s).2 ≠ s) (hrest : (strtol s).2 = [])
    (hpos : 0 ≤ (strtol s).1) : ∃ n, Names s n := by
  unfold strtol at hread hrest hpos
  cases hscan : scan s with
  | none =>
    rw [hscan] at hread
    exact absurd rfl hread
  | some r =>
    obtain ⟨negative, n, rest⟩ := r
    simp only [hscan] at hrest hpos
    subst hrest
    refine ⟨n, negative, hscan, fun hneg => ?_⟩
    rw [if_pos hneg] at hpos
    omega

theorem core_of_names {s : List Char} {n : Nat} (h : Names s n) (d : Int) :
    configuredBenchCore (some s) d = ((min n (2 ^ 63 - 1) : Nat) : Int).bmod (2 ^ 32) := by
  have hnil := h.ne_nil
  have hcond : ¬ (([] : List Char) = s ∨ ([] : List Char) ≠ [] ∨ ((min n (2 ^ 63 - 1) : Nat) : Int) < 0) := by
    rintro (h | h | h)
    · exact hnil h.symm
    · exact h rfl
    · omega
  simp only [configuredBenchCore, if_neg hnil, strtol_of_names h, if_neg hcond]

theorem core_of_not_names {s : List Char} (h : ∀ n, ¬ Names s n) (d : Int) : configuredBenchCore (some s) d = d := by
  simp only [configuredBenchCore]
  split
  · rfl
  · split
    · rfl
    · rename_i hcond
      simp only [not_or, not_not, Int.not_lt] at hcond
      obtain ⟨n, hn⟩ := names_of_strtol hcond.1 hcond.2.1 hcond.2.2
      exact absurd hn (h n)

theorem names_toDigits (n : Nat) : Names (Nat.toDigits 10 n) n := by
  have hends : Ends [] := fun _ h => by cases h
  have hscan := scan_toDigits n hends
  rw [List.append_nil] at hscan
  exact ⟨false, hscan, fun h => by cases h⟩

/-- A core is the number that the variable names, if that is below `2 ^ 31`, and the default if the variable is not set
or names none; a larger number can make it negative. -/
theorem core_exact (d : Int) : configuredBenchCore none d = d ∧
    (∀ s, (∀ n, ¬ Names s n) → configuredBenchCore (some s) d = d) ∧
    (∀ s n, Names s n → n < 2 ^ 31 → configuredBenchCore (some s) d = n) ∧
    (∀ s n, Names s n → (configuredBenchCore (some s) d < 0 ↔ 2 ^ 31 ≤ min n (2 ^ 63 - 1) % 2 ^ 32)) ∧
    ∀ n, Names (Nat.toDigits 10 n) n := by
  refine ⟨rfl, fun s h => core_of_not_names h d, fun s n h hn => ?_, fun s n h => ?_, names_toDigits⟩
  · rw [core_of_names h, Int.bmod_def]
    omega
  · rw [core_of_names h, Int.bmod_def]
    omega

example : configuredBenchCore (some "4294967295".toList) 2 = -1 := by decide

end CommandLine

end Lobook
