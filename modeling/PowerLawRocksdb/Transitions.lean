import Mathlib.Logic.Basic
import Mathlib.Logic.Function.Iterate
import Mathlib.Data.List.Basic

/-!
# Runs of a partial step function

A component is given by a step function on its states. The step returns `none`
where the component cannot take the action, or where taking it is undefined. A
run consumes a finite list of actions and is defined only when every one of its
steps is. Three things are said about whole runs: an invariant of one step is an
invariant of the run, a condition can be required of every step together with
the state that it is taken in, and a property can be required of every state.
-/
namespace PowerLawRocksdb.Transitions

variable {S A : Type*} (step : S → A → Option S)

def run : S → List A → Option S
  | s, [] => some s
  | s, a :: as => (step s a).bind fun t => run t as

/-- Every step of the run meets `C` in the state it is taken in. -/
def Along (C : S → A → Prop) : S → List A → Prop
  | _, [] => True
  | s, a :: as => C s a ∧ ∀ t, step s a = some t → Along C t as

/-- Every state of the run has `Q`, the first one included. -/
def Throughout (Q : S → Prop) : S → List A → Prop
  | s, [] => Q s
  | s, a :: as => Q s ∧ ∀ t, step s a = some t → Throughout Q t as

variable {step}

theorem run_cons {s : S} {a : A} {as : List A} {u : S} :
    run step s (a :: as) = some u ↔ ∃ t, step s a = some t ∧ run step t as = some u := by
  simp only [run, Option.bind_eq_some_iff]

theorem run_append (s : S) (as bs : List A) :
    run step s (as ++ bs) = (run step s as).bind fun t => run step t bs := by
  induction as generalizing s with
  | nil => rfl
  | cons a as ih => simp only [List.cons_append, run, ih, Option.bind_assoc]

/-- Repeating one action iterates what it does to a family of states. -/
theorem run_replicate {V : Type*} {f : V → S} {g : V → V} {a : A}
    (hstep : ∀ v, step (f v) a = some (f (g v))) (n : ℕ) (v : V) :
    run step (f v) (List.replicate n a) = some (f (g^[n] v)) := by
  induction n generalizing v with
  | zero => rfl
  | succ n ih =>
      rw [List.replicate_succ, run_cons]
      exact ⟨f (g v), hstep v, ih (g v)⟩

/-- The invariant rule: only steps that meet the condition have to keep `I`. -/
theorem run_invariant {C : S → A → Prop} {I : S → Prop}
    (hstep : ∀ s a t, I s → C s a → step s a = some t → I t)
    {s u : S} {as : List A} (hs : I s) (hC : Along step C s as)
    (h : run step s as = some u) : I u := by
  induction as generalizing s with
  | nil => cases h; exact hs
  | cons a as ih =>
      obtain ⟨t, ht, hu⟩ := run_cons.mp h
      exact ih (hstep s a t hs hC.1 ht) (hC.2 t ht) hu

/-- The simulation rule: what matches every step matches the run. -/
theorem run_simulates {T : Type*} {C : S → A → Prop} {R : S → T → Prop} {next : T → A → T}
    (hstep : ∀ s a s' t, R s t → C s a → step s a = some s' → R s' (next t a))
    {s u : S} {t : T} {as : List A} (hs : R s t) (hC : Along step C s as)
    (h : run step s as = some u) : R u (as.foldl next t) := by
  induction as generalizing s t with
  | nil => cases h; exact hs
  | cons a as ih =>
      obtain ⟨s', hs', hu⟩ := run_cons.mp h
      exact ih (hstep s a s' t hs hC.1 hs') (hC.2 s' hs') hu

theorem along_trivial (s : S) (as : List A) : Along step (fun _ _ => True) s as := by
  induction as generalizing s with
  | nil => trivial
  | cons a as ih => exact ⟨trivial, fun t _ => ih t⟩

/-- The unconditional form of the invariant rule. -/
theorem run_preserves {I : S → Prop} (hstep : ∀ s a t, I s → step s a = some t → I t)
    {s u : S} {as : List A} (hs : I s) (h : run step s as = some u) : I u :=
  run_invariant (fun s a t hi _ ht => hstep s a t hi ht) hs (along_trivial s as) h

/-- If a step that breaks the condition leads from `I` to a property that no
later step repairs, the end of a run shows whether all of its steps met it. -/
theorem run_dichotomy {C : S → A → Prop} {I B : S → Prop}
    (hgood : ∀ s a t, I s → C s a → step s a = some t → I t)
    (hbad : ∀ s a t, I s → ¬ C s a → step s a = some t → B t)
    (hstay : ∀ s a t, B s → step s a = some t → B t)
    {s u : S} {as : List A} (hs : I s) (h : run step s as = some u) :
    (Along step C s as ∧ I u) ∨ (¬ Along step C s as ∧ B u) := by
  induction as generalizing s with
  | nil => cases h; exact Or.inl ⟨trivial, hs⟩
  | cons a as ih =>
      obtain ⟨t, ht, hu⟩ := run_cons.mp h
      by_cases hC : C s a
      · rcases ih (hgood s a t hs hC ht) hu with ⟨hA, hI⟩ | ⟨hA, hB⟩
        · refine Or.inl ⟨⟨hC, fun r hr => ?_⟩, hI⟩
          cases ht.symm.trans hr
          exact hA
        · exact Or.inr ⟨fun hall => hA (hall.2 t ht), hB⟩
      · exact Or.inr ⟨fun hall => hC hall.1, run_preserves hstay (hbad s a t hs hC ht) hu⟩

instance decidableAlong {C : S → A → Prop} [∀ s a, Decidable (C s a)] (s : S) (as : List A) :
    Decidable (Along step C s as) :=
  match as with
  | [] => isTrue trivial
  | a :: as =>
      match h : step s a with
      | none => decidable_of_iff (C s a) (by simp [Along, h])
      | some t =>
          have := decidableAlong (C := C) t as
          decidable_of_iff (C s a ∧ Along step C t as) (by simp [Along, h])

instance decidableThroughout {Q : S → Prop} [∀ s, Decidable (Q s)] (s : S) (as : List A) :
    Decidable (Throughout step Q s as) :=
  match as with
  | [] => inferInstanceAs (Decidable (Q s))
  | a :: as =>
      match h : step s a with
      | none => decidable_of_iff (Q s) (by simp [Throughout, h])
      | some t =>
          have := decidableThroughout (Q := Q) t as
          decidable_of_iff (Q s ∧ Throughout step Q t as) (by simp [Throughout, h])

theorem along_of_forall {C : A → Prop} {as : List A} (h : ∀ a ∈ as, C a) (s : S) :
    Along step (fun _ a => C a) s as := by
  induction as generalizing s with
  | nil => trivial
  | cons a as ih =>
      exact ⟨h a List.mem_cons_self, fun t _ => ih (fun b hb => h b (List.mem_cons_of_mem a hb)) t⟩

theorem Along.append {C : S → A → Prop} {s : S} {as bs : List A} (has : Along step C s as)
    (hbs : ∀ t, run step s as = some t → Along step C t bs) : Along step C s (as ++ bs) := by
  induction as generalizing s with
  | nil => exact hbs s rfl
  | cons a as ih =>
      exact ⟨has.1, fun t ht => ih (has.2 t ht) fun u hu => hbs u (run_cons.mpr ⟨t, ht, hu⟩)⟩

theorem Along.and {C D : S → A → Prop} {s : S} {as : List A} (hC : Along step C s as)
    (hD : Along step D s as) : Along step (fun s a => C s a ∧ D s a) s as := by
  induction as generalizing s with
  | nil => trivial
  | cons a as ih => exact ⟨⟨hC.1, hD.1⟩, fun t ht => ih (hC.2 t ht) (hD.2 t ht)⟩

theorem Throughout.along {Q : S → Prop} {s : S} {as : List A} (h : Throughout step Q s as) :
    Along step (fun s _ => Q s) s as := by
  induction as generalizing s with
  | nil => trivial
  | cons a as ih => exact ⟨h.1, fun t ht => ih (h.2 t ht)⟩

theorem Throughout.last {Q : S → Prop} {s u : S} {as : List A} (h : Throughout step Q s as)
    (hrun : run step s as = some u) : Q u := by
  induction as generalizing s with
  | nil =>
      cases hrun
      exact h
  | cons a as ih =>
      obtain ⟨t, ht, hu⟩ := run_cons.mp hrun
      exact ih (h.2 t ht) hu

/-- Where the steps that meet the condition are defined and keep an invariant, the run
is defined, and all of its states have what follows from the invariant. -/
theorem run_defined {C : S → A → Prop} {I Q : S → Prop}
    (hstep : ∀ s a, I s → C s a → ∃ t, step s a = some t ∧ I t) (hQ : ∀ s, I s → Q s)
    {s : S} {as : List A} (hs : I s) (hC : Along step C s as) :
    (∃ u, run step s as = some u) ∧ Throughout step Q s as := by
  induction as generalizing s with
  | nil => exact ⟨⟨s, rfl⟩, hQ s hs⟩
  | cons a as ih =>
      obtain ⟨t, ht, hit⟩ := hstep s a hs hC.1
      obtain ⟨⟨u, hu⟩, hthrough⟩ := ih hit (hC.2 t ht)
      refine ⟨⟨u, run_cons.mpr ⟨t, ht, hu⟩⟩, hQ s hs, ?_⟩
      intro r hr
      cases ht.symm.trans hr
      exact hthrough

/-- On the states of an invariant, a condition on the steps may be weakened. -/
theorem Along.imp {C D : S → A → Prop} {I : S → Prop}
    (hstep : ∀ s a t, I s → C s a → step s a = some t → I t)
    (himp : ∀ s a, I s → C s a → D s a)
    {s : S} {as : List A} (hs : I s) (h : Along step C s as) : Along step D s as := by
  induction as generalizing s with
  | nil => trivial
  | cons a as ih =>
      exact ⟨himp s a hs h.1, fun t ht => ih (hstep s a t hs h.1 ht) (h.2 t ht)⟩

/-- Where each step from a state of the invariant establishes `Q` exactly under `C`, a
run stays inside `Q` exactly when all of its steps meet `C`. -/
theorem throughout_iff_along {C : S → A → Prop} {I Q : S → Prop}
    (hinv : ∀ s a t, I s → step s a = some t → I t)
    (hstep : ∀ s a t, I s → Q s → step s a = some t → (Q t ↔ C s a))
    {s u : S} {as : List A} (hi : I s) (hs : Q s) (h : run step s as = some u) :
    Throughout step Q s as ↔ Along step C s as := by
  induction as generalizing s with
  | nil => exact ⟨fun _ => trivial, fun _ => hs⟩
  | cons a as ih =>
      obtain ⟨t, ht, hu⟩ := run_cons.mp h
      have hit := hinv s a t hi ht
      constructor
      · rintro ⟨_, hQ⟩
        have hQt : Q t := by cases as with
          | nil => exact hQ t ht
          | cons b bs => exact (hQ t ht).1
        refine ⟨(hstep s a t hi hs ht).mp hQt, fun r hr => ?_⟩
        cases ht.symm.trans hr
        exact (ih hit hQt hu).mp (hQ t ht)
      · rintro ⟨hC, hA⟩
        refine ⟨hs, fun r hr => ?_⟩
        cases ht.symm.trans hr
        exact (ih hit ((hstep s a t hi hs ht).mpr hC) hu).mpr (hA t ht)

end PowerLawRocksdb.Transitions
