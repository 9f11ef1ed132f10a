import Mathlib.Data.List.Forall2
import Typeset.Sweep

/-!
# Runs of a walk

A walk does to every element what its step does. The element at a place is read off the state that
the elements before it leave, and what each step keeps a whole run over numbered elements keeps.
-/

namespace Typeset

variable {σ α β : Type}

/-- Two walks, over elements and states that correspond, stay in step when each step does. -/
theorem sweep_map_comm {τ γ δ : Type} {step : σ → α → σ × β} {step' : τ → γ → τ × δ} {f : σ → τ}
    {w : α → γ} {v : β → δ} {l : List α}
    (h : ∀ s, ∀ a ∈ l, step' (f s) (w a) = (f (step s a).1, v (step s a).2)) (s : σ) :
    sweep step' (f s) (l.map w) = (f (sweep step s l).1, (sweep step s l).2.map v) := by
  induction l generalizing s with
  | nil => rfl
  | cons a l ih =>
    have hrest := ih (fun t b hb => h t b (by simp [hb])) (step s a).1
    rw [List.map_cons, sweep_cons, sweep_cons, h s a (by simp), hrest, List.map_cons]

/-- The same for walks over one list. -/
theorem sweep_comm {step step' : σ → α → σ × β} {f : σ → σ} {g : β → β}
    (h : ∀ s a, step' (f s) a = (f (step s a).1, g (step s a).2)) (s : σ) (l : List α) :
    sweep step' (f s) l = (f (sweep step s l).1, (sweep step s l).2.map g) := by
  have hmap := sweep_map_comm (w := id) (fun s (a : α) (_ : a ∈ l) => h s a) s
  rwa [List.map_id] at hmap

/-- The same for walks that leave the same states. -/
theorem sweep_map {γ δ : Type} {step : σ → α → σ × β} {step' : σ → γ → σ × δ} {w : α → γ}
    {v : β → δ} {l : List α} (h : ∀ s, ∀ a ∈ l, step' s (w a) = ((step s a).1, v (step s a).2))
    (s : σ) : sweep step' s (l.map w) = ((sweep step s l).1, (sweep step s l).2.map v) :=
  sweep_map_comm (f := id) h s

/-- A walk shows nothing of what its step does not read. -/
theorem sweep_map_left {γ : Type} {step : σ → α → σ × β} {step' : σ → γ → σ × β} {w : α → γ}
    {l : List α} (h : ∀ s, ∀ a ∈ l, step' s (w a) = step s a) (s : σ) :
    sweep step' s (l.map w) = sweep step s l := by
  have hmap := sweep_map (v := id) h s
  rwa [List.map_id] at hmap

/-- Two walks over related elements, from related states, leave related states and results. -/
theorem sweep_related {τ γ δ : Type} {S : σ → τ → Prop} {A : α → γ → Prop} {B : β → δ → Prop}
    {step : σ → α → σ × β} {step' : τ → γ → τ × δ}
    (h : ∀ s t a c, S s t → A a c → S (step s a).1 (step' t c).1 ∧ B (step s a).2 (step' t c).2)
    {l : List α} {m : List γ} (hlm : List.Forall₂ A l m) {s : σ} {t : τ} (hst : S s t) :
    S (sweep step s l).1 (sweep step' t m).1 ∧
      List.Forall₂ B (sweep step s l).2 (sweep step' t m).2 := by
  induction hlm generalizing s t with
  | nil => exact ⟨hst, .nil⟩
  | cons hac _ ih =>
    obtain ⟨hnext, hresult⟩ := h _ _ _ _ hst hac
    obtain ⟨hend, hrest⟩ := ih hnext
    rw [sweep_cons, sweep_cons]
    exact ⟨hend, .cons hresult hrest⟩

/-- The same for two walks over one list. -/
theorem sweep_same {τ δ : Type} {S : σ → τ → Prop} {B : β → δ → Prop} {step : σ → α → σ × β}
    {step' : τ → α → τ × δ}
    (h : ∀ s t a, S s t → S (step s a).1 (step' t a).1 ∧ B (step s a).2 (step' t a).2)
    {s : σ} {t : τ} (hst : S s t) (l : List α) :
    S (sweep step s l).1 (sweep step' t l).1 ∧
      List.Forall₂ B (sweep step s l).2 (sweep step' t l).2 :=
  sweep_related (fun s t a _ hst hac => hac ▸ h s t a hst)
    (List.forall₂_same.mpr fun a _ => (rfl : a = a)) hst

/-- A walk over its own results finds nothing to change if no step does. -/
theorem sweep_idem {step : σ → α → σ × α} (h : ∀ s a, step s (step s a).2 = step s a) (s : σ)
    (l : List α) : sweep step s (sweep step s l).2 = sweep step s l := by
  induction l generalizing s with
  | nil => rfl
  | cons a l ih => rw [sweep_cons, sweep_cons, h, ih]

theorem forall₂_sweep {R : α → β → Prop} {step : σ → α → σ × β} {l : List α}
    (h : ∀ s, ∀ a ∈ l, R a (step s a).2) (s : σ) : List.Forall₂ R l (sweep step s l).2 := by
  induction l generalizing s with
  | nil => exact .nil
  | cons a l ih =>
    rw [sweep_cons]
    exact .cons (h s a (by simp)) (ih (fun t b hb => h t b (by simp [hb])) _)

/-- Where each step and the next one agree, the results make a chain. -/
theorem isChain_sweep {T : β → β → Prop} {step : σ → α → σ × β} {l : List α}
    (h : ∀ s, ∀ a ∈ l, ∀ b ∈ l, T (step s a).2 (step (step s a).1 b).2) (s : σ) :
    (sweep step s l).2.IsChain T := by
  induction l generalizing s with
  | nil => exact .nil
  | cons a l ih =>
    have hrest := ih (fun t b hb c hc => h t b (by simp [hb]) c (by simp [hc])) (step s a).1
    cases l with
    | nil => exact .singleton _
    | cons b l =>
      simp only [sweep_cons] at hrest ⊢
      exact .cons_cons (h s a (by simp) b (by simp)) hrest

theorem forall₂_map_zipIdx {R : α → β → Prop} {f : α × ℕ → β} (h : ∀ a n, R a (f (a, n)))
    (l : List α) (n : ℕ) : List.Forall₂ R l ((l.zipIdx n).map f) := by
  induction l generalizing n with
  | nil => exact .nil
  | cons a l ih =>
    rw [List.zipIdx_cons, List.map_cons]
    exact .cons (h a n) (ih (n + 1))

theorem forall₂_zipIdx {γ : Type} {R : α → γ → Prop} {l : List α} {m : List γ}
    (h : List.Forall₂ R l m) (n : ℕ) :
    List.Forall₂ (fun p q => R p.1 q.1 ∧ p.2 = q.2) (l.zipIdx n) (m.zipIdx n) := by
  induction h generalizing n with
  | nil => exact .nil
  | cons hab _ ih => exact .cons ⟨hab, rfl⟩ (ih (n + 1))

theorem getElem?_sweep (step : σ → α → σ × β) (s : σ) (l : List α) (n : ℕ) :
    (sweep step s l).2[n]? = l[n]?.map fun a => (step (sweep step s (l.take n)).1 a).2 := by
  induction l generalizing s n with
  | nil => simp
  | cons a l ih => cases n <;> simp [sweep_cons, ih]

theorem sweep_take_succ (step : σ → α → σ × β) (s : σ) {l : List α} {n : ℕ} {a : α}
    (h : l[n]? = some a) :
    (sweep step s (l.take (n + 1))).1 = (step (sweep step s (l.take n)).1 a).1 := by
  rw [List.take_add_one, h, Option.toList_some, sweep_append]
  simp [sweep_cons]

theorem isChain_of_forall₂ {β γ : Type} {R : β → γ → Prop} {S : β → β → Prop}
    {T : γ → γ → Prop} {l : List β} {m : List γ} (h : List.Forall₂ R l m) (hl : l.IsChain S)
    (hT : ∀ a b c d, R a c → R b d → S a b → T c d) : m.IsChain T := by
  induction h with
  | nil => exact .nil
  | cons hac hrest ih =>
    cases hrest with
    | nil => exact .singleton _
    | cons hbd hrest =>
      rw [List.isChain_cons_cons] at hl
      exact .cons_cons (hT _ _ _ _ hac hbd hl.1) (ih hl.2)

/-- Where every step adds one condition, a run adds those of its elements. -/
theorem foldl_iff {Q : σ → Prop} {P : α → Prop} {f : σ → α → σ}
    (h : ∀ s a, Q (f s a) ↔ Q s ∧ P a) (s : σ) (l : List α) :
    Q (l.foldl f s) ↔ Q s ∧ ∀ a ∈ l, P a := by
  induction l generalizing s with
  | nil => simp
  | cons a l ih => rw [List.foldl_cons, ih, h, List.forall_mem_cons, and_assoc]

/-- What holds at the start and is kept by every step holds after a run over numbered elements. -/
theorem foldl_zipIdx_run {P : ℕ → σ → Prop} {f : σ → α × ℕ → σ} {l : List α} {s : σ}
    (start : P 0 s) (step : ∀ n a s, l[n]? = some a → P n s → P (n + 1) (f s (a, n))) :
    P l.length (l.zipIdx.foldl f s) := by
  have run : ∀ (rest done : List α) (s : σ), l = done ++ rest → P done.length s →
      P l.length ((rest.zipIdx done.length).foldl f s) := by
    intro rest
    induction rest with
    | nil =>
      intro done s hl hs
      simpa [hl] using hs
    | cons a rest ih =>
      intro done s hl hs
      have ha : l[done.length]? = some a := by simp [hl]
      have h := ih (done ++ [a]) (f s (a, done.length)) (by simp [hl])
        (by simpa using step _ _ _ ha hs)
      simpa [List.zipIdx_cons] using h
  exact run l [] s rfl start

/-- A run that may fail: what holds at the start and is kept by every step that succeeds holds at
the end, or some step fails. -/
theorem foldlM_run {ε : Type} {P : ℕ → σ → Prop} {Q : ℕ → ε → Prop} {f : σ → α → Except ε σ}
    {l : List α} {s : σ} (start : P 0 s)
    (step : ∀ n a s, l[n]? = some a → P n s →
      (∃ t, f s a = .ok t ∧ P (n + 1) t) ∨ ∃ e, f s a = .error e ∧ Q n e) :
    (∃ t, l.foldlM f s = .ok t ∧ P l.length t) ∨ ∃ n e, l.foldlM f s = .error e ∧ Q n e := by
  have run : ∀ (rest done : List α) (s : σ), l = done ++ rest → P done.length s →
      (∃ t, rest.foldlM f s = .ok t ∧ P l.length t) ∨
        ∃ n e, rest.foldlM f s = .error e ∧ Q n e := by
    intro rest
    induction rest with
    | nil =>
      intro done s hl hs
      exact .inl ⟨s, rfl, by simpa [hl] using hs⟩
    | cons a rest ih =>
      intro done s hl hs
      have ha : l[done.length]? = some a := by simp [hl]
      rw [List.foldlM_cons]
      rcases step _ _ _ ha hs with ⟨t, ht, hP⟩ | ⟨e, he, hQ⟩
      · rw [ht]
        exact ih (done ++ [a]) t (by simp [hl]) (by simpa using hP)
      · rw [he]
        exact .inr ⟨_, e, rfl, hQ⟩
  exact run l [] s rfl start

end Typeset
