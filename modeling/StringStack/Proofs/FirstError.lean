/-! Computations that stop at their first error. A chain comes to a result if each of its links
does, and otherwise to the error of the first link that has one. -/
namespace StringStack

variable {α β γ ε φ : Type}

theorem bind_eq_ok_iff {r : Except ε α} {g : α → Except ε β} {b : β} :
    r >>= g = .ok b ↔ ∃ a, r = .ok a ∧ g a = .ok b := by
  cases r with
  | error e => simp [bind, Except.bind]
  | ok a => simp [bind, Except.bind]

theorem bind_eq_error_iff {r : Except ε α} {g : α → Except ε β} {e : ε} :
    r >>= g = .error e ↔ r = .error e ∨ ∃ a, r = .ok a ∧ g a = .error e := by
  cases r with
  | error e' => simp [bind, Except.bind]
  | ok a => simp [bind, Except.bind]

theorem map_eq_ok_iff {r : Except ε α} {g : α → β} {b : β} :
    r.map g = .ok b ↔ ∃ a, r = .ok a ∧ g a = b := by
  cases r with
  | error e => simp [Except.map]
  | ok a => simp [Except.map]

theorem map_eq_error_iff {r : Except ε α} {g : α → β} {e : ε} :
    r.map g = .error e ↔ r = .error e := by
  cases r with
  | error e => simp [Except.map]
  | ok a => exact iff_of_false nofun nofun

theorem mapError_eq_ok_iff {r : Except ε α} {g : ε → φ} {a : α} :
    r.mapError g = .ok a ↔ r = .ok a := by
  cases r with
  | error e => exact iff_of_false nofun nofun
  | ok a =>
    constructor
    · rintro ⟨⟩
      rfl
    · rintro ⟨⟩
      rfl

theorem mapError_eq_error_iff {r : Except ε α} {g : ε → φ} {e : φ} :
    r.mapError g = .error e ↔ ∃ cause, r = .error cause ∧ g cause = e := by
  cases r with
  | error cause =>
    constructor
    · rintro ⟨⟩
      exact ⟨cause, rfl, rfl⟩
    · rintro ⟨_, ⟨⟩, rfl⟩
      rfl
  | ok a =>
    refine iff_of_false nofun ?_
    rintro ⟨_, ⟨⟩, _⟩

section Sequences

variable {f : α → Except ε β}

theorem mapM_cons_eq_ok_iff {x : α} {xs : List α} {ys : List β} :
    (x :: xs).mapM f = .ok ys ↔ ∃ y zs, f x = .ok y ∧ xs.mapM f = .ok zs ∧ ys = y :: zs := by
  simp only [List.mapM_cons, bind_eq_ok_iff]
  constructor
  · rintro ⟨y, hy, zs, hzs, same⟩
    exact ⟨y, zs, hy, hzs, (Except.ok.inj same).symm⟩
  · rintro ⟨y, zs, hy, hzs, rfl⟩
    exact ⟨y, hy, zs, hzs, rfl⟩

theorem mapM_eq_ok_iff {xs : List α} {ys : List β} :
    xs.mapM f = .ok ys ↔ xs.length = ys.length ∧
      ∀ (i : Nat) (x : α), xs[i]? = some x → ∃ y, ys[i]? = some y ∧ f x = .ok y := by
  induction xs generalizing ys with
  | nil =>
    cases ys with
    | nil => simp [pure, Except.pure]
    | cons y ys => simp [pure, Except.pure]
  | cons x xs ih =>
    simp only [mapM_cons_eq_ok_iff, ih]
    constructor
    · rintro ⟨y, zs, hy, ⟨length, each⟩, rfl⟩
      refine ⟨congrArg (· + 1) length, fun i a at_i => ?_⟩
      cases i with
      | zero => exact ⟨y, rfl, Option.some.inj at_i ▸ hy⟩
      | succ i => exact each i a at_i
    · rintro ⟨length, each⟩
      cases ys with
      | nil => cases length
      | cons y ys =>
        obtain ⟨first, at_zero, hy⟩ := each 0 x rfl
        cases at_zero
        exact ⟨y, ys, hy, ⟨Nat.succ.inj length, fun i a at_i => each (i + 1) a at_i⟩, rfl⟩

theorem exists_mapM_eq_ok {xs : List α} (each : ∀ x ∈ xs, ∃ y, f x = .ok y) :
    ∃ ys, xs.mapM f = .ok ys := by
  induction xs with
  | nil => exact ⟨[], rfl⟩
  | cons x xs ih =>
    obtain ⟨y, hy⟩ := each x List.mem_cons_self
    obtain ⟨ys, hys⟩ := ih fun a member => each a (List.mem_cons_of_mem _ member)
    exact ⟨y :: ys, mapM_cons_eq_ok_iff.2 ⟨y, ys, hy, hys, rfl⟩⟩

end Sequences

theorem exists_of_foldlM_eq_error {f : β → α → Except ε β} {xs : List α} {start : β} {e : ε}
    (failed : xs.foldlM f start = .error e) :
    ∃ before x after last, xs = before ++ x :: after ∧ before.foldlM f start = .ok last ∧
    f last x = .error e := by
  induction xs generalizing start with
  | nil => cases failed
  | cons x xs ih =>
    rw [List.foldlM_cons] at failed
    rcases bind_eq_error_iff.1 failed with here | ⟨next, went, later⟩
    · exact ⟨[], x, xs, start, rfl, rfl, here⟩
    · obtain ⟨before, y, after, last, rfl, read, broken⟩ := ih later
      refine ⟨x :: before, y, after, last, rfl, ?_, broken⟩
      rw [List.foldlM_cons, went]
      exact read

theorem exists_of_mapM_eq_error {f : α → Except ε β} {xs : List α} {e : ε}
    (failed : xs.mapM f = .error e) :
    ∃ before x after, xs = before ++ x :: after ∧ (∀ y ∈ before, ∃ b, f y = .ok b) ∧
    f x = .error e := by
  induction xs with
  | nil => cases failed
  | cons x xs ih =>
    rw [List.mapM_cons] at failed
    rcases bind_eq_error_iff.1 failed with here | ⟨b, went, later⟩
    · exact ⟨[], x, xs, rfl, nofun, here⟩
    · rcases bind_eq_error_iff.1 later with there | ⟨_, _, impossible⟩
      · obtain ⟨before, y, after, rfl, fine, broken⟩ := ih there
        exact ⟨x :: before, y, after, rfl, List.forall_mem_cons.2 ⟨⟨b, went⟩, fine⟩, broken⟩
      · cases impossible

theorem mapM_of_mapM_eq_ok {f : α → Except ε β} {g : β → Except ε γ} {xs : List α} {ys : List β}
    (read : xs.mapM f = .ok ys) : ys.mapM g = xs.mapM fun x => f x >>= g := by
  induction xs generalizing ys with
  | nil =>
    cases read
    rfl
  | cons x xs ih =>
    obtain ⟨y, zs, first, rest, rfl⟩ := mapM_cons_eq_ok_iff.1 read
    rw [List.mapM_cons, List.mapM_cons, ih rest, first]
    rfl

end StringStack
