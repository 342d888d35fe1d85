import Mathlib.Data.List.Basic
import Mathlib.Data.List.Induction

/-!
# Fallible computations

Guards, lookups and loops that stop at the first error, with the equations that
take a successful run apart.
-/
namespace Outcome

section
variable {ε α β : Type}

/-- Stops with an error when the condition holds. -/
def reject (c : Prop) [Decidable c] (e : ε) : Except ε Unit :=
  if c then .error e else .ok ()

def okOr (x : Option α) (e : ε) : Except ε α :=
  match x with
  | some a => .ok a
  | none => .error e

/-- Runs a check on every element, in order. -/
def checkAll (check : α → Except ε Unit) : List α → Except ε Unit
  | [] => .ok ()
  | a :: rest => do
      check a
      checkAll check rest

theorem isOk_iff {x : Except ε α} : x.isOk = true ↔ ∃ a, x = .ok a := by
  cases x <;> simp [Except.isOk, Except.toBool]

theorem eq_ok_get {x : Except ε α} (h : x.toOption.isSome = true) :
    x = .ok (x.toOption.get h) := by
  cases x with
  | error e => cases h
  | ok a => rfl

instance decidableExistsOk {x : Except ε α} {P : α → Prop} [DecidablePred P] :
    Decidable (∃ a, x = .ok a ∧ P a) :=
  match x with
  | .ok a => decidable_of_iff (P a) (by simp)
  | .error _ => isFalse (by simp)

@[simp] theorem bind_eq_ok {x : Except ε α} {f : α → Except ε β} {b : β} :
    x >>= f = .ok b ↔ ∃ a, x = .ok a ∧ f a = .ok b := by
  cases x with
  | error e => simp [bind, Except.bind]
  | ok a => simp [bind, Except.bind]

/-- A check followed by the rest succeeds when both do. -/
@[simp high] theorem check_bind_eq_ok {x : Except ε Unit} {f : Unit → Except ε β} {b : β} :
    x >>= f = .ok b ↔ x = .ok () ∧ f () = .ok b := by
  cases x with
  | error e => simp [bind, Except.bind]
  | ok u => simp [bind, Except.bind]

@[simp] theorem pure_eq_ok {a b : α} : (pure a : Except ε α) = .ok b ↔ a = b := by
  simp [pure, Except.pure]

@[simp] theorem map_eq_ok {x : Except ε α} {f : α → β} {b : β} :
    f <$> x = .ok b ↔ ∃ a, x = .ok a ∧ f a = b := by
  cases x with
  | error e => simp [Functor.map, Except.map]
  | ok a => simp [Functor.map, Except.map]

@[simp] theorem mapError_eq_ok {ε' : Type} {x : Except ε α} {f : ε → ε'} {a : α} :
    x.mapError f = .ok a ↔ x = .ok a := by
  cases x <;> simp [Except.mapError]

@[simp] theorem reject_eq_ok {c : Prop} [Decidable c] {e : ε} {u : Unit} :
    reject c e = .ok u ↔ ¬c := by
  unfold reject
  split_ifs with h <;> simp [h]

@[simp] theorem okOr_eq_ok {x : Option α} {e : ε} {a : α} : okOr x e = .ok a ↔ x = some a := by
  cases x <;> simp [okOr]

theorem bind_eq_error {x : Except ε α} {f : α → Except ε β} {e : ε} :
    x >>= f = .error e ↔ x = .error e ∨ ∃ a, x = .ok a ∧ f a = .error e := by
  cases x with
  | error e => simp [bind, Except.bind]
  | ok a => simp [bind, Except.bind]

theorem reject_eq_error {c : Prop} [Decidable c] {e e' : ε} :
    reject c e = .error e' ↔ c ∧ e = e' := by
  unfold reject
  split_ifs with h <;> simp [h]

theorem okOr_eq_error {x : Option α} {e e' : ε} :
    okOr x e = .error e' ↔ x = none ∧ e = e' := by
  cases x <;> simp [okOr]

@[simp] theorem checkAll_eq_ok {check : α → Except ε Unit} {l : List α} {u : Unit} :
    checkAll check l = .ok u ↔ ∀ a ∈ l, check a = .ok () := by
  induction l with
  | nil => simp [checkAll]
  | cons a l ih => simp [checkAll, ih]

/-- A property kept by every successful step is kept by a whole successful loop. -/
theorem foldlM_invariant {f : β → α → Except ε β} {P : β → Prop} {l : List α} {b r : β}
    (hstep : ∀ b' a r', a ∈ l → P b' → f b' a = .ok r' → P r') (hb : P b)
    (h : l.foldlM f b = .ok r) : P r := by
  induction l generalizing b with
  | nil =>
      simp only [List.foldlM_nil, pure_eq_ok] at h
      exact h ▸ hb
  | cons a l ih =>
      simp only [List.foldlM_cons, bind_eq_ok] at h
      obtain ⟨b', hab, hrest⟩ := h
      refine ih (fun b₁ a₁ r₁ ha₁ => hstep b₁ a₁ r₁ (List.mem_cons_of_mem _ ha₁)) ?_ hrest
      exact hstep b a b' (List.mem_cons_self ..) hb hab

theorem exists_mapM_eq_ok {f : α → Except ε β} {l : List α} :
    (∃ r, l.mapM f = .ok r) ↔ ∀ a ∈ l, ∃ b, f a = .ok b := by
  induction l with
  | nil => exact ⟨fun _ => nofun, fun _ => ⟨[], rfl⟩⟩
  | cons a rest ih =>
      simp only [List.mapM_cons, bind_eq_ok, pure_eq_ok, List.forall_mem_cons, ← ih]
      constructor
      · rintro ⟨_, b, hb, r, hr, rfl⟩
        exact ⟨⟨b, hb⟩, r, hr⟩
      · rintro ⟨⟨b, hb⟩, r, hr⟩
        exact ⟨_, b, hb, r, hr, rfl⟩

theorem mem_of_mapM_eq_ok {f : α → Except ε β} {l : List α} {r : List β} (h : l.mapM f = .ok r)
    {b : β} : b ∈ r ↔ ∃ a ∈ l, f a = .ok b := by
  induction l generalizing r with
  | nil =>
      cases h
      simp
  | cons a rest ih =>
      simp only [List.mapM_cons, bind_eq_ok, pure_eq_ok] at h
      obtain ⟨b', hb', r', hr', rfl⟩ := h
      rw [List.mem_cons, ih hr', List.exists_mem_cons_iff, hb', Except.ok.injEq, eq_comm]

theorem foldlM_concat {f : β → α → Except ε β} (l : List α) (a : α) (b : β) :
    (l ++ [a]).foldlM f b = l.foldlM f b >>= fun b' => f b' a := by
  simp only [List.foldlM_append, List.foldlM_cons, List.foldlM_nil, bind_pure]

/-- What each step keeps of the elements before it, a successful loop keeps of all of them. -/
theorem foldlM_followed {f : β → α → Except ε β} {I : List α → β → Prop}
    (hkeep : ∀ ahead b a b', I ahead b → f b a = .ok b' → I (ahead ++ [a]) b') {l : List α}
    {b r : β} (hb : I [] b) (h : l.foldlM f b = .ok r) : I l r := by
  induction l using List.reverseRecOn generalizing r with
  | nil =>
      cases h
      exact hb
  | append_singleton l a ih =>
      rw [foldlM_concat, bind_eq_ok] at h
      obtain ⟨b', hrest, hlast⟩ := h
      exact hkeep l b' a r (ih hrest) hlast

theorem forall_prefix_nil {Q : List α → α → Prop} (ahead : List α) (a : α)
    (h : ahead ++ [a] <+: []) : Q ahead a := by
  cases List.append_ne_nil_of_right_ne_nil ahead (List.cons_ne_nil a []) (List.prefix_nil.1 h)

/-- What is said of every element after those before it, said of the first one and the others. -/
theorem forall_prefix_cons {Q : List α → α → Prop} {x : α} {l : List α} :
    (∀ ahead a, ahead ++ [a] <+: x :: l → Q ahead a) ↔
      Q [] x ∧ ∀ ahead a, ahead ++ [a] <+: l → Q (x :: ahead) a := by
  constructor
  · intro h
    refine ⟨h [] x ⟨l, rfl⟩, fun ahead a hprefix => h (x :: ahead) a ?_⟩
    exact List.cons_prefix_cons.2 ⟨rfl, hprefix⟩
  · rintro ⟨hx, hl⟩ ahead a hprefix
    cases ahead with
    | nil =>
        obtain ⟨rfl, -⟩ := List.cons_prefix_cons.1 hprefix
        exact hx
    | cons y ahead =>
        obtain ⟨rfl, hrest⟩ := List.cons_prefix_cons.1 hprefix
        exact hl ahead a hrest

/-- A loop succeeds exactly if every element passes after those before it, where the state that
they lead to is known well enough to tell. -/
theorem foldlM_ok_iff_prefix {f : β → α → Except ε β} {I : List α → β → Prop}
    {Q : List α → α → Prop}
    (hstep : ∀ ahead b a, I ahead b → ((∃ b', f b a = .ok b') ↔ Q ahead a))
    (hkeep : ∀ ahead b a b', I ahead b → f b a = .ok b' → I (ahead ++ [a]) b') (l : List α) {b : β}
    (hb : I [] b) :
    (∃ r, l.foldlM f b = .ok r) ↔ ∀ ahead a, ahead ++ [a] <+: l → Q ahead a := by
  induction l using List.reverseRecOn with
  | nil =>
      constructor
      · intro _ ahead a h
        exact forall_prefix_nil ahead a h
      · intro _
        exact ⟨b, rfl⟩
  | append_singleton l a ih =>
      have hlast : ∀ b', l.foldlM f b = .ok b' → ((∃ r, f b' a = .ok r) ↔ Q l a) := by
        intro b' h
        exact hstep l b' a (foldlM_followed hkeep hb h)
      constructor
      · rintro ⟨r, hr⟩ ahead x hx
        rw [foldlM_concat, bind_eq_ok] at hr
        obtain ⟨b', hb', hr⟩ := hr
        rcases List.prefix_concat_iff.1 hx with heq | hx
        · obtain ⟨rfl, hxa⟩ := List.append_inj' heq rfl
          cases hxa
          exact (hlast b' hb').1 ⟨r, hr⟩
        · exact ih.1 ⟨b', hb'⟩ ahead x hx
      · intro h
        obtain ⟨b', hb'⟩ := ih.2 fun ahead x hx => h ahead x (hx.trans (List.prefix_append ..))
        obtain ⟨r, hr⟩ := (hlast b' hb').2 (h l a List.prefix_rfl)
        refine ⟨r, ?_⟩
        rw [foldlM_concat, bind_eq_ok]
        exact ⟨b', hb', hr⟩

/-- Every element satisfies the predicate in the state that the loop has reached before it. -/
def Along (f : β → α → Except ε β) (P : β → α → Prop) : β → List α → Prop
  | _, [] => True
  | b, a :: rest => P b a ∧ ∀ b', f b a = .ok b' → Along f P b' rest

/-- If the predicate decides each step, it decides the loop. -/
theorem foldlM_ok_iff {f : β → α → Except ε β} {P : β → α → Prop} {I : β → Prop}
    (hstep : ∀ b a, I b → ((∃ b', f b a = .ok b') ↔ P b a))
    (hkeep : ∀ b a b', I b → f b a = .ok b' → I b') (l : List α) {b : β} (hb : I b) :
    (∃ r, l.foldlM f b = .ok r) ↔ Along f P b l := by
  induction l generalizing b with
  | nil => exact ⟨fun _ => trivial, fun _ => ⟨b, rfl⟩⟩
  | cons a rest ih =>
      simp only [List.foldlM_cons, bind_eq_ok, Along]
      constructor
      · rintro ⟨r, b', hab, hrest⟩
        refine ⟨(hstep b a hb).1 ⟨b', hab⟩, fun b₁ hab₁ => ?_⟩
        cases hab.symm.trans hab₁
        exact (ih (hkeep b a b' hb hab)).1 ⟨r, hrest⟩
      · rintro ⟨hP, hall⟩
        obtain ⟨b', hab⟩ := (hstep b a hb).2 hP
        obtain ⟨r, hrest⟩ := (ih (hkeep b a b' hb hab)).2 (hall b' hab)
        exact ⟨r, b', hab, hrest⟩

theorem along_congr {f : β → α → Except ε β} {P Q : β → α → Prop} {I : β → Prop}
    (hstep : ∀ b a, I b → (P b a ↔ Q b a)) (hkeep : ∀ b a b', I b → f b a = .ok b' → I b')
    (l : List α) {b : β} (hb : I b) : Along f P b l ↔ Along f Q b l := by
  induction l generalizing b with
  | nil => rfl
  | cons a rest ih =>
      refine and_congr (hstep b a hb) (forall_congr' fun b' => ?_)
      exact ⟨fun h hab => (ih (hkeep b a b' hb hab)).1 (h hab),
        fun h hab => (ih (hkeep b a b' hb hab)).2 (h hab)⟩

/-- A loop whose steps are total up to a check of each element. -/
theorem foldlM_checked {f : β → α → Except ε β} {g : β → α → β} {P : α → Prop}
    (hstep : ∀ b a b', f b a = .ok b' ↔ P a ∧ b' = g b a) {l : List α} {b r : β} :
    l.foldlM f b = .ok r ↔ (∀ a ∈ l, P a) ∧ r = l.foldl g b := by
  induction l generalizing b with
  | nil => simp [List.foldlM_nil, eq_comm (a := b)]
  | cons a rest ih =>
      simp only [List.foldlM_cons, bind_eq_ok, hstep, ih, List.forall_mem_cons, List.foldl_cons]
      constructor
      · rintro ⟨_, ⟨ha, rfl⟩, hrest, hr⟩
        exact ⟨⟨ha, hrest⟩, hr⟩
      · rintro ⟨⟨ha, hrest⟩, hr⟩
        exact ⟨_, ⟨ha, rfl⟩, hrest, hr⟩

/-- Some element satisfies the predicate in the state that the loop has reached before it. -/
def Sometime (f : β → α → Except ε β) (P : β → α → Prop) : β → List α → Prop
  | _, [] => False
  | b, a :: rest => P b a ∨ ∃ b', f b a = .ok b' ∧ Sometime f P b' rest

/-- What each step adds for its element, or perhaps for its element in its state, the loop
adds. -/
theorem foldlM_adds {f : β → α → Except ε β} {K : β → Prop} {W : α → Prop} {p : Prop}
    {P : β → α → Prop} (hstep : ∀ b a b', f b a = .ok b' → (K b' ↔ K b ∨ W a ∨ p ∧ P b a))
    {l : List α} {b r : β} (h : l.foldlM f b = .ok r) :
    K r ↔ K b ∨ (∃ a ∈ l, W a) ∨ p ∧ Sometime f P b l := by
  induction l generalizing b with
  | nil =>
      cases h
      simp [Sometime]
  | cons a rest ih =>
      simp only [List.foldlM_cons, bind_eq_ok] at h
      obtain ⟨b', hab, hrest⟩ := h
      have hlater : (∃ b₁, f b a = .ok b₁ ∧ Sometime f P b₁ rest) ↔ Sometime f P b' rest := by
        constructor
        · rintro ⟨b₁, hab₁, hsome⟩
          cases hab.symm.trans hab₁
          exact hsome
        · intro hsome
          exact ⟨b', hab, hsome⟩
      rw [ih hrest, hstep b a b' hab, Sometime, hlater, List.exists_mem_cons_iff]
      generalize (∃ x ∈ rest, W x) = later
      tauto

/-- A successful loop has processed each of its elements, in a state that keeps the property. -/
theorem foldlM_mem {f : β → α → Except ε β} {P : β → Prop} {l : List α} {a : α} {b r : β}
    (hstep : ∀ b' a' r', P b' → f b' a' = .ok r' → P r') (hb : P b)
    (h : l.foldlM f b = .ok r) (ha : a ∈ l) : ∃ b₁ b₂, P b₁ ∧ f b₁ a = .ok b₂ := by
  induction l generalizing b with
  | nil => cases ha
  | cons a' l ih =>
      simp only [List.foldlM_cons, bind_eq_ok] at h
      obtain ⟨b', hab, hrest⟩ := h
      cases ha with
      | head => exact ⟨b, b', hb, hab⟩
      | tail _ ha => exact ih (hstep b a' b' hb hab) hrest ha

end

end Outcome
