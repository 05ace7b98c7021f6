/-
# Outcomes of several steps

A walk over a list that succeeds has done every step with success.  What it
collects is what the steps have found (`Outcome.mem_flatten_of_mapM`), and what a
table holds at its end is what it held before and what the steps have added
(`Outcome.foldlM_adds`).
-/

import ConstantTime.Diagnostic.Failure

namespace ConstantTime
namespace Outcome

variable {α β σ : Type}

theorem bind_eq_ok {x : Outcome α} {f : α → Outcome β} {y : β} :
    x >>= f = .ok y ↔ ∃ a, x = .ok a ∧ f a = .ok y := by
  cases x with
  | error e =>
    constructor
    · intro h
      cases h
    · rintro ⟨a, h, -⟩
      cases h
  | ok a =>
    constructor
    · exact fun h => ⟨a, rfl, h⟩
    · rintro ⟨b, h, hf⟩
      cases h
      exact hf

theorem bind_eq_error {x : Outcome α} {f : α → Outcome β} {e : Failure} :
    x >>= f = .error e ↔ x = .error e ∨ ∃ a, x = .ok a ∧ f a = .error e := by
  cases x with
  | error e' =>
    constructor
    · intro h
      cases h
      exact .inl rfl
    · rintro (h | ⟨a, h, -⟩)
      · cases h
        rfl
      · cases h
  | ok a =>
    constructor
    · exact fun h => .inr ⟨a, rfl, h⟩
    · rintro (h | ⟨b, h, hf⟩)
      · cases h
      · cases h
        exact hf

theorem pure_eq_ok {a b : α} : (pure a : Outcome α) = .ok b ↔ a = b :=
  ⟨fun h => by cases h; rfl, fun h => by rw [h]; rfl⟩

/-- A check of all elements that succeeds has accepted each. -/
theorem forM_eq_ok {check : α → Outcome Unit} {xs : List α} (h : xs.forM check = .ok ()) :
    ∀ x ∈ xs, check x = .ok () := by
  induction xs with
  | nil => simp
  | cons y xs ih =>
    obtain ⟨⟨⟩, hy, hrest⟩ := (bind_eq_ok (x := check y) (f := fun _ => xs.forM check)).1 h
    intro x hx
    rcases List.mem_cons.1 hx with rfl | hx
    · exact hy
    · exact ih hrest x hx

/-- A check of all elements succeeds if it accepts each. -/
theorem forM_ok {check : α → Outcome Unit} {xs : List α} (h : ∀ x ∈ xs, check x = .ok ()) :
    xs.forM check = .ok () := by
  induction xs with
  | nil => rfl
  | cons x xs ih =>
    exact bind_eq_ok.2 ⟨(), h x List.mem_cons_self, ih fun y hy => h y (List.mem_cons_of_mem _ hy)⟩

/-- A check of all elements fails as one of the checks does. -/
theorem forM_error {check : α → Outcome Unit} {P : Failure → Prop}
    (hcheck : ∀ x e, check x = .error e → P e) {xs : List α} {e : Failure}
    (h : xs.forM check = .error e) : P e := by
  induction xs with
  | nil => cases h
  | cons x xs ih =>
    rcases (bind_eq_error (x := check x) (f := fun _ => xs.forM check)).1 h with h | ⟨-, -, h⟩
    · exact hcheck x e h
    · exact ih h

/-- A walk that succeeds has an outcome for every element, and no others. -/
theorem mapM_eq_ok {f : α → Outcome β} {xs : List α} {ys : List β} (h : xs.mapM f = .ok ys) :
    (∀ x ∈ xs, ∃ y ∈ ys, f x = .ok y) ∧ ∀ y ∈ ys, ∃ x ∈ xs, f x = .ok y := by
  induction xs generalizing ys with
  | nil =>
    rw [List.mapM_nil, pure_eq_ok] at h
    simp [← h]
  | cons x xs ih =>
    simp only [List.mapM_cons, bind_eq_ok, pure_eq_ok] at h
    obtain ⟨y, hxy, zs, hrest, rfl⟩ := h
    obtain ⟨hall, honly⟩ := ih hrest
    constructor
    · intro x' hx'
      rcases List.mem_cons.1 hx' with rfl | hx'
      · exact ⟨y, List.mem_cons_self, hxy⟩
      · obtain ⟨z, hz, he⟩ := hall x' hx'
        exact ⟨z, List.mem_cons_of_mem _ hz, he⟩
    · intro z hz
      rcases List.mem_cons.1 hz with rfl | hz
      · exact ⟨x, List.mem_cons_self, hxy⟩
      · obtain ⟨x', hx', he⟩ := honly z hz
        exact ⟨x', List.mem_cons_of_mem _ hx', he⟩

/-- A walk succeeds if there is a result for every element. -/
theorem exists_mapM {ε : Type} {f : α → Except ε β} {xs : List α}
    (h : ∀ x ∈ xs, ∃ y, f x = .ok y) :
    ∃ ys, xs.mapM f = .ok ys := by
  induction xs with
  | nil => exact ⟨[], rfl⟩
  | cons x xs ih =>
    obtain ⟨y, hy⟩ := h x List.mem_cons_self
    obtain ⟨ys, hys⟩ := ih fun x' hx' => h x' (List.mem_cons_of_mem _ hx')
    rw [List.mapM_cons, hy]
    exact ⟨y :: ys, by rw [hys]; rfl⟩

/-- A walk over elements whose results are known. -/
theorem mapM_eq_ok_map {ε : Type} {f : α → Except ε β} {g : α → β} {xs : List α}
    (h : ∀ x ∈ xs, f x = .ok (g x)) : xs.mapM f = .ok (xs.map g) := by
  induction xs with
  | nil => rfl
  | cons x xs ih =>
    rw [List.mapM_cons, h x List.mem_cons_self, ih fun x' hx' => h x' (List.mem_cons_of_mem _ hx')]
    rfl

/-- **What a walk collects.** -/
theorem mem_flatten_of_mapM {f : α → Outcome (List β)} {xs : List α} {ys : List (List β)}
    (h : xs.mapM f = .ok ys) {b : β} :
    b ∈ ys.flatten ↔ ∃ x ∈ xs, ∃ found, f x = .ok found ∧ b ∈ found := by
  obtain ⟨hall, honly⟩ := mapM_eq_ok h
  rw [List.mem_flatten]
  constructor
  · rintro ⟨found, hf, hb⟩
    obtain ⟨x, hx, he⟩ := honly found hf
    exact ⟨x, hx, found, he, hb⟩
  · rintro ⟨x, hx, found, he, hb⟩
    obtain ⟨found', hf, he'⟩ := hall x hx
    rw [he] at he'
    cases he'
    exact ⟨found, hf, hb⟩

/-- A walk that finds what is looked for at every element collects all of it. -/
theorem exists_mapM_flatten {f : α → Outcome (List β)} {Q : α → β → Prop} {xs : List α}
    (h : ∀ x ∈ xs, ∃ found, f x = .ok found ∧ ∀ b, b ∈ found ↔ Q x b) :
    ∃ ys, xs.mapM f = .ok ys ∧ ∀ b, b ∈ ys.flatten ↔ ∃ x ∈ xs, Q x b := by
  obtain ⟨ys, hys⟩ := exists_mapM fun x hx => (h x hx).imp fun _ hf => hf.1
  refine ⟨ys, hys, fun b => (mem_flatten_of_mapM hys).trans ?_⟩
  refine exists_congr fun x => and_congr_right fun hx => ?_
  obtain ⟨found, hf, hmem⟩ := h x hx
  rw [← hmem b]
  constructor
  · rintro ⟨found', hf', hb⟩
    rw [hf] at hf'
    cases hf'
    exact hb
  · exact fun hb => ⟨found, hf, hb⟩

/-- **What a walk adds** to a state, where every step adds something of its own. -/
theorem foldlM_adds {f : σ → α → Outcome σ} {P : σ → Prop} {Q : α → Prop}
    (step : ∀ s a s', f s a = .ok s' → (P s' ↔ P s ∨ Q a)) {xs : List α} {s s' : σ}
    (h : xs.foldlM f s = .ok s') : P s' ↔ P s ∨ ∃ a ∈ xs, Q a := by
  induction xs generalizing s with
  | nil =>
    rw [List.foldlM_nil, pure_eq_ok] at h
    simp [← h]
  | cons x xs ih =>
    rw [List.foldlM_cons, bind_eq_ok] at h
    obtain ⟨t, hx, hrest⟩ := h
    rw [ih hrest, step s x t hx]
    simp [or_assoc]

/-- What every step keeps holds at the end of a walk. -/
theorem foldlM_keeps {f : σ → α → Outcome σ} {P : σ → Prop} {xs : List α}
    (step : ∀ s, ∀ a ∈ xs, ∀ s', f s a = .ok s' → P s → P s') {s s' : σ} (hs : P s)
    (h : xs.foldlM f s = .ok s') : P s' := by
  induction xs generalizing s with
  | nil =>
    rw [List.foldlM_nil, pure_eq_ok] at h
    exact h ▸ hs
  | cons x xs ih =>
    rw [List.foldlM_cons, bind_eq_ok] at h
    obtain ⟨t, hx, hrest⟩ := h
    exact ih (fun s a ha => step s a (List.mem_cons_of_mem _ ha))
      (step s x List.mem_cons_self t hx hs) hrest

/-- A walk succeeds if every step does on what the steps keep. -/
theorem exists_foldlM {f : σ → α → Outcome σ} {P : σ → Prop} {xs : List α}
    (step : ∀ s, ∀ a ∈ xs, P s → ∃ s', f s a = .ok s' ∧ P s') {s : σ} (hs : P s) :
    ∃ s', xs.foldlM f s = .ok s' ∧ P s' := by
  induction xs generalizing s with
  | nil => exact ⟨s, rfl, hs⟩
  | cons x xs ih =>
    obtain ⟨t, ht, hPt⟩ := step s x List.mem_cons_self hs
    obtain ⟨s', hs', hP⟩ := ih (fun s a ha => step s a (List.mem_cons_of_mem _ ha)) hPt
    rw [List.foldlM_cons, ht]
    exact ⟨s', hs', hP⟩

/-- A walk fails as one of its steps does. -/
theorem foldlM_error {f : σ → α → Outcome σ} {P : Failure → Prop}
    (step : ∀ s a e, f s a = .error e → P e) {xs : List α} {s : σ} {e : Failure}
    (h : xs.foldlM f s = .error e) : P e := by
  induction xs generalizing s with
  | nil => cases h
  | cons x xs ih =>
    rw [List.foldlM_cons, bind_eq_error] at h
    rcases h with h | ⟨t, -, h⟩
    · exact step s x e h
    · exact ih h

end Outcome
end ConstantTime
