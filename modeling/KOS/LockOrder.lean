import KOS.Machine

/-! Threads that run programs over shared data, under locks. A program that requests a lock only
above the ranks of the locks it holds closes no cycle of waiters, however the threads interleave. -/

namespace KOS.LockOrder
open KOS.Machine

variable {σ κ τ ι : Type*}

/-- What is left of a call. -/
inductive Prog (σ κ : Type*) where
  | done
  /-- A failed assertion: the thread stays where it is. -/
  | halt
  | lock (m : κ) (next : Prog σ κ)
  | unlock (m : κ) (next : Prog σ κ)
  /-- A step on the data; what comes next depends on what it found. -/
  | act (run : σ → σ) (next : σ → Prog σ κ)

structure State (σ κ τ : Type*) where
  data : σ
  owner : κ → Option τ
  prog : τ → Prog σ κ

inductive Event (τ ι : Type*) where
  | call (t : τ) (c : ι)
  | exec (t : τ)

section Step

variable [DecidableEq κ] [DecidableEq τ]

/-- The next step of `t`; `none` when it has none, or waits for a lock. -/
def exec (s : State σ κ τ) (t : τ) : Option (State σ κ τ) :=
  match s.prog t with
  | .done => none
  | .halt => none
  | .lock m next =>
      match s.owner m with
      | none => some { s with owner := Function.update s.owner m (some t), prog := Function.update s.prog t next }
      | some _ => none
  | .unlock m next =>
      some { s with owner := Function.update s.owner m none, prog := Function.update s.prog t next }
  | .act run next => some { s with data := run s.data, prog := Function.update s.prog t (next s.data) }

/-- A thread that has finished its call may make another. -/
def step (body : ι → Prog σ κ) (s : State σ κ τ) : Event τ ι → Option (State σ κ τ)
  | .call t c =>
      match s.prog t with
      | .done => some { s with prog := Function.update s.prog t (body c) }
      | _ => none
  | .exec t => exec s t

end Step

/-- `t` waits for a lock that `u` owns. -/
def Waits (s : State σ κ τ) (t u : τ) : Prop := ∃ m next, s.prog t = .lock m next ∧ s.owner m = some u

/-! The discipline. -/

/-- Locks are requested in ascending rank and given back last first. -/
def Disciplined (rank : κ → Nat) : List κ → Prog σ κ → Prop
  | held, .done => held = []
  | _, .halt => True
  | held, .lock m next => (∀ x ∈ held, rank x < rank m) ∧ Disciplined rank (m :: held) next
  | held, .unlock m next => ∃ rest, held = m :: rest ∧ Disciplined rank rest next
  | held, .act _ next => ∀ d, Disciplined rank held (next d)

/-- Each thread holds what its program is about to give back, and owns nothing else. -/
structure Holds (rank : κ → Nat) (s : State σ κ τ) (held : τ → List κ) : Prop where
  disciplined : ∀ t, Disciplined rank (held t) (s.prog t)
  ordered : ∀ t, (held t).Pairwise fun x y => rank y < rank x
  owned : ∀ m t, s.owner m = some t ↔ m ∈ held t

variable {rank : κ → Nat} {s s' : State σ κ τ} {held : τ → List κ} {t u : τ} {m m' : κ}

theorem Holds.unique (holds : Holds rank s held) (first : m ∈ held t) (second : m ∈ held u) : t = u := by
  have left := (holds.owned m t).mpr first
  have right := (holds.owned m u).mpr second
  exact Option.some.inj (left.symm.trans right)

/-- A thread requests a lock only above all it owns. -/
theorem Holds.above (holds : Holds rank s held) {next : Prog σ κ} (requests : s.prog t = .lock m next)
    (owns : s.owner m' = some t) : rank m' < rank m := by
  have disciplined := holds.disciplined t
  rw [requests] at disciplined
  exact disciplined.1 m' ((holds.owned m' t).mp owns)

/-- Two locks of one rank are never owned by one thread. -/
theorem Holds.one_of_rank (holds : Holds rank s held) (first : s.owner m = some t) (second : s.owner m' = some t)
    (same : rank m = rank m') : m = m' := by
  have distinct : ((held t).map rank).Nodup := by
    apply List.Pairwise.map rank _ (holds.ordered t)
    intro x y below
    exact (Nat.ne_of_lt below).symm
  exact List.inj_on_of_nodup_map distinct ((holds.owned m t).mp first) ((holds.owned m' t).mp second) same

/-- Along a chain of waiters the requested ranks grow. -/
theorem Holds.chain (holds : Holds rank s held) (waits : Relation.TransGen (Waits s) t u) {next : Prog σ κ}
    (requests : s.prog u = .lock m next) : ∃ m₀ next₀, s.prog t = .lock m₀ next₀ ∧ rank m₀ < rank m := by
  induction waits generalizing m next with
  | single last =>
    obtain ⟨m₀, next₀, requests₀, owns⟩ := last
    exact ⟨m₀, next₀, requests₀, holds.above requests owns⟩
  | tail _ last ih =>
    obtain ⟨m₁, next₁, requests₁, owns⟩ := last
    obtain ⟨m₀, next₀, requests₀, below⟩ := ih requests₁
    exact ⟨m₀, next₀, requests₀, below.trans (holds.above requests owns)⟩

theorem Holds.no_cycle (holds : Holds rank s held) (t : τ) : ¬Relation.TransGen (Waits s) t t := by
  intro cycle
  have starts : ∃ m next, s.prog t = .lock m next := by
    obtain ⟨u, first, -⟩ := Relation.TransGen.head'_iff.mp cycle
    obtain ⟨m, next, requests, -⟩ := first
    exact ⟨m, next, requests⟩
  obtain ⟨m, next, requests⟩ := starts
  obtain ⟨m₀, next₀, requests₀, below⟩ := holds.chain cycle requests
  rw [requests] at requests₀
  obtain ⟨rfl, -⟩ := Prog.lock.inj requests₀
  exact Nat.lt_irrefl _ below

/-! Runs. -/

/-- Nobody is in a call, and no lock is owned. -/
structure Start (s : State σ κ τ) : Prop where
  idle : ∀ t, s.prog t = .done
  free : ∀ m, s.owner m = none

theorem Start.holds (start : Start s) : Holds rank s fun _ => [] := by
  refine ⟨?_, fun _ => List.Pairwise.nil, ?_⟩
  · intro t
    rw [start.idle]
    rfl
  · intro m t
    simp [start.free]

section Run

variable [DecidableEq κ] [DecidableEq τ]

omit [DecidableEq κ] in
/-- A thread goes on with `p` and holds `list`; the owners follow. -/
theorem Holds.replace {p : Prog σ κ} {list : List κ} (holds : Holds rank s held) (disciplined : Disciplined rank list p)
    (ordered : list.Pairwise fun x y => rank y < rank x) (moved : s'.prog = Function.update s.prog t p)
    (mine : ∀ m, s'.owner m = some t ↔ m ∈ list) (others : ∀ m u, u ≠ t → (s'.owner m = some u ↔ m ∈ held u)) :
    Holds rank s' (Function.update held t list) := by
  refine ⟨?_, ?_, ?_⟩
  · intro u
    rw [moved]
    by_cases same : u = t
    · rw [same, Function.update_self, Function.update_self]
      exact disciplined
    · rw [Function.update_of_ne same, Function.update_of_ne same]
      exact holds.disciplined u
  · intro u
    by_cases same : u = t
    · rw [same, Function.update_self]
      exact ordered
    · rw [Function.update_of_ne same]
      exact holds.ordered u
  · intro m u
    by_cases same : u = t
    · rw [same, Function.update_self]
      exact mine m
    · rw [Function.update_of_ne same]
      exact others m u same

omit [DecidableEq κ] in
/-- A thread takes a step that leaves the owners alone. -/
theorem Holds.turn {p : Prog σ κ} (holds : Holds rank s held) (disciplined : Disciplined rank (held t) p)
    (owner : s'.owner = s.owner) (moved : s'.prog = Function.update s.prog t p) : Holds rank s' held := by
  have owned : ∀ m u, s'.owner m = some u ↔ m ∈ held u := by
    rw [owner]
    exact holds.owned
  have turned := holds.replace disciplined (holds.ordered t) moved (fun m => owned m t) fun m u _ => owned m u
  rwa [Function.update_eq_self] at turned

theorem Holds.lock {next : Prog σ κ} (holds : Holds rank s held) (requests : s.prog t = .lock m next)
    (free : s.owner m = none) (owner : s'.owner = Function.update s.owner m (some t))
    (moved : s'.prog = Function.update s.prog t next) :
    Holds rank s' (Function.update held t (m :: held t)) := by
  have disciplined := holds.disciplined t
  rw [requests] at disciplined
  obtain ⟨above, later⟩ := disciplined
  apply holds.replace later (List.Pairwise.cons above (holds.ordered t)) moved
  · intro m'
    rw [owner, List.mem_cons]
    by_cases lock : m' = m
    · rw [lock, Function.update_self]
      exact iff_of_true rfl (.inl rfl)
    · rw [Function.update_of_ne lock, holds.owned]
      exact (or_iff_right lock).symm
  · intro m' u other
    rw [owner]
    by_cases lock : m' = m
    · have before := holds.owned m u
      rw [free] at before
      rw [lock, Function.update_self, ← before]
      exact iff_of_false (fun same => other (Option.some.inj same).symm) (Option.some_ne_none u).symm
    · rw [Function.update_of_ne lock]
      exact holds.owned m' u

theorem Holds.unlock {next : Prog σ κ} (holds : Holds rank s held) (gives : s.prog t = .unlock m next)
    (owner : s'.owner = Function.update s.owner m none) (moved : s'.prog = Function.update s.prog t next) :
    Holds rank s' (Function.update held t (held t).tail) := by
  have disciplined := holds.disciplined t
  rw [gives] at disciplined
  obtain ⟨rest, top, later⟩ := disciplined
  have ordered := holds.ordered t
  rw [top] at ordered ⊢
  have once : m ∉ rest := fun again => Nat.lt_irrefl _ (List.rel_of_pairwise_cons ordered again)
  apply holds.replace later ordered.of_cons moved
  · intro m'
    rw [owner]
    by_cases lock : m' = m
    · rw [lock, Function.update_self]
      exact iff_of_false (Option.some_ne_none t).symm once
    · rw [Function.update_of_ne lock, holds.owned, top, List.mem_cons]
      exact or_iff_right lock
  · intro m' u other
    rw [owner]
    by_cases lock : m' = m
    · have mine : m ∈ held t := by simp [top]
      rw [lock, Function.update_self]
      exact iff_of_false (Option.some_ne_none u).symm fun there => other (holds.unique there mine)
    · rw [Function.update_of_ne lock]
      exact holds.owned m' u

theorem Holds.exec (holds : Holds rank s held) (ran : exec s t = some s') : ∃ held', Holds rank s' held' := by
  have disciplined := holds.disciplined t
  unfold LockOrder.exec at ran
  cases prog : s.prog t with
  | done => simp [prog] at ran
  | halt => simp [prog] at ran
  | lock m next =>
    cases owner : s.owner m with
    | none =>
      simp only [prog, owner] at ran
      cases ran
      exact ⟨_, holds.lock prog owner rfl rfl⟩
    | some u => simp [prog, owner] at ran
  | unlock m next =>
    simp only [prog] at ran
    cases ran
    exact ⟨_, holds.unlock prog rfl rfl⟩
  | act run next =>
    simp only [prog] at ran
    cases ran
    rw [prog] at disciplined
    exact ⟨held, holds.turn (disciplined s.data) rfl rfl⟩

variable {body : ι → Prog σ κ}

theorem Holds.step {e : Event τ ι} (bodies : ∀ c, Disciplined rank [] (body c)) (holds : Holds rank s held)
    (moved : step body s e = some s') : ∃ held', Holds rank s' held' := by
  cases e with
  | exec t => exact holds.exec moved
  | call t c =>
    have disciplined := holds.disciplined t
    simp only [LockOrder.step] at moved
    cases prog : s.prog t <;> rw [prog] at moved <;> cases moved
    rw [prog] at disciplined
    have idle : held t = [] := disciplined
    have starts : Disciplined rank (held t) (body c) := by
      rw [idle]
      exact bodies c
    exact ⟨held, holds.turn starts rfl rfl⟩

/-- In whatever order the threads execute, each holds what its program accounts for. -/
theorem reach_holds (bodies : ∀ c, Disciplined rank [] (body c)) (start : Start s)
    (run : Reach (step body) (fun _ _ => True) s s') : ∃ held, Holds rank s' held := by
  have kept : ∀ (before : State σ κ τ) (e : Event τ ι) after, (∃ held, Holds rank before held) → True →
      step body before e = some after → ∃ held, Holds rank after held := by
    intro before e after holds _ moved
    obtain ⟨held, holds⟩ := holds
    exact holds.step bodies moved
  exact Reach.invariant kept ⟨_, start.holds⟩ run

end Run

/-! One program alone. -/

/-- What a program leaves behind when nothing interrupts it and every lock is free; `none` if it halts. -/
def Prog.run : Prog σ κ → σ → Option σ
  | .done, d => some d
  | .halt, _ => none
  | .lock _ next, d => next.run d
  | .unlock _ next, d => next.run d
  | .act run next, d => (next d).run (run d)

end KOS.LockOrder
