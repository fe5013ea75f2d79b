import LineShell.Error
import Mathlib.Data.List.Forall2
/-!
# Lists and results

The equations of results that later steps build on, lists that are read element by element, and
lists that are joined and divided at an element.
-/

namespace LineShell

section Results

variable {ε α β : Type} {result : Except ε α} {next : α → Except ε β}

@[simp] theorem ok_bind (a : α) (next : α → Except ε β) : (Except.ok a >>= next) = next a := rfl

@[simp] theorem error_bind (e : ε) (next : α → Except ε β) : (Except.error e >>= next) = .error e :=
  rfl

@[simp] theorem pure_eq_ok (a : α) : (pure a : Except ε α) = .ok a := rfl

@[simp] theorem throw_eq_error (e : ε) : (throw e : Except ε α) = .error e := rfl

theorem bind_eq_ok_iff {b : β} :
    (result >>= next) = .ok b ↔ ∃ a, result = .ok a ∧ next a = .ok b := by
  cases result <;> simp

theorem bind_eq_error_iff {e : ε} :
    (result >>= next) = .error e ↔
      result = .error e ∨ ∃ a, result = .ok a ∧ next a = .error e := by
  cases result <;> simp

end Results

section Reading

variable {ε α β : Type} {read : α → Except ε β} {items : List α}

theorem mapM_eq_ok_iff {results : List β} :
    items.mapM read = .ok results ↔
      List.Forall₂ (fun item result => read item = .ok result) items results := by
  induction items generalizing results with
  | nil =>
    rw [List.mapM_nil, List.forall₂_nil_left_iff]
    exact ⟨fun h => (Except.ok.inj h).symm, fun h => h ▸ rfl⟩
  | cons item items ih =>
    rw [List.mapM_cons, bind_eq_ok_iff]
    constructor
    · rintro ⟨result, hitem, h⟩
      obtain ⟨rest, hitems, heq⟩ := bind_eq_ok_iff.1 h
      cases heq
      exact .cons hitem (ih.1 hitems)
    · intro h
      cases h with
      | cons hitem hitems => exact ⟨_, hitem, bind_eq_ok_iff.2 ⟨_, ih.2 hitems, rfl⟩⟩

theorem exists_of_mapM_eq_error {e : ε} (h : items.mapM read = .error e) :
    ∃ item ∈ items, read item = .error e := by
  induction items with
  | nil => cases h
  | cons item items ih =>
    rw [List.mapM_cons, bind_eq_error_iff] at h
    rcases h with hitem | ⟨result, -, h⟩
    · exact ⟨item, List.mem_cons_self, hitem⟩
    · rcases bind_eq_error_iff.1 h with hitems | ⟨rest, -, h⟩
      · obtain ⟨other, hother, hread⟩ := ih hitems
        exact ⟨other, List.mem_cons_of_mem item hother, hread⟩
      · cases h

end Reading

section Congruence

variable {α β : Type} {m : Type → Type} [Monad m] {items : List α}

theorem mapM_congr [LawfulMonad m] {step other : α → m β}
    (h : ∀ item ∈ items, step item = other item) : items.mapM step = items.mapM other := by
  induction items with
  | nil => rfl
  | cons item items ih =>
    have hitem := h item List.mem_cons_self
    have hitems := ih fun next hnext => h next (List.mem_cons_of_mem item hnext)
    rw [List.mapM_cons, List.mapM_cons, hitem, hitems]

theorem foldlM_congr {step other : β → α → m β}
    (h : ∀ item ∈ items, ∀ b, step b item = other b item) (start : β) :
    items.foldlM step start = items.foldlM other start := by
  induction items generalizing start with
  | nil => rfl
  | cons item items ih =>
    have hitem := h item List.mem_cons_self start
    have hitems := ih fun next hnext => h next (List.mem_cons_of_mem item hnext)
    simp only [List.foldlM_cons, hitem, hitems]

theorem forM_congr {step other : α → m Unit} (h : ∀ item ∈ items, step item = other item) :
    items.forM step = items.forM other := by
  induction items with
  | nil => rfl
  | cons item items ih =>
    have hitem := h item List.mem_cons_self
    have hitems := ih fun next hnext => h next (List.mem_cons_of_mem item hnext)
    simp only [List.forM, hitem, hitems]

end Congruence

section Related

variable {α β : Type} {related : α → β → Prop} {items : List α} {results : List β}

theorem exists_forall₂ (h : ∀ item ∈ items, ∃ result, related item result) :
    ∃ results, List.Forall₂ related items results := by
  induction items with
  | nil => exact ⟨[], .nil⟩
  | cons item items ih =>
    obtain ⟨result, hresult⟩ := h item List.mem_cons_self
    obtain ⟨results, hresults⟩ := ih fun other hother => h other (List.mem_cons_of_mem item hother)
    exact ⟨result :: results, .cons hresult hresults⟩

theorem exists_of_mem_right (h : List.Forall₂ related items results) {result : β}
    (hmem : result ∈ results) : ∃ item ∈ items, related item result := by
  induction h with
  | nil => cases hmem
  | @cons item other items results hitem _ ih =>
    rcases List.mem_cons.1 hmem with rfl | hmem
    · exact ⟨item, List.mem_cons_self, hitem⟩
    · obtain ⟨item', hitem', hrelated⟩ := ih hmem
      exact ⟨item', List.mem_cons_of_mem item hitem', hrelated⟩

theorem forall₂_swap {other : β → α → Prop} (h : List.Forall₂ related items results)
    (himp : ∀ item ∈ items, ∀ result, related item result → other result item) :
    List.Forall₂ other results items := by
  have hmem := (List.forall₂_and_left items results).2 ⟨fun item hitem => hitem, h⟩
  apply List.Forall₂.flip
  exact hmem.imp fun item result hrelated => himp item hrelated.1 result hrelated.2

end Related

section Joining

variable {α : Type} {joint : α} {pieces : List (List α)}

/-- What holds of lists, and of any two joined by an element, holds of all of them joined. -/
theorem intercalate_induction {motive : List α → Prop} (hnil : motive [])
    (hjoin : ∀ left right, motive left → motive right → motive (left ++ joint :: right))
    (h : ∀ piece ∈ pieces, motive piece) : motive (List.intercalate [joint] pieces) := by
  induction pieces with
  | nil => exact hnil
  | cons piece pieces ih =>
    have hpiece := h piece List.mem_cons_self
    cases pieces with
    | nil => rwa [List.intercalate_singleton]
    | cons next pieces =>
      rw [List.intercalate_cons_cons, List.append_assoc, List.singleton_append]
      exact hjoin piece _ hpiece (ih fun other hother =>
        h other (List.mem_cons_of_mem piece hother))

theorem notMem_intercalate {a : α} (hjoint : a ≠ joint) (h : ∀ piece ∈ pieces, a ∉ piece) :
    a ∉ List.intercalate [joint] pieces := by
  apply intercalate_induction (motive := fun list => a ∉ list) List.not_mem_nil _ h
  intro left right hleft hright
  simp [hjoint, hleft, hright]

theorem infix_intercalate {piece : List α} (h : piece ∈ pieces) :
    piece <:+: List.intercalate [joint] pieces := by
  induction pieces with
  | nil => cases h
  | cons first pieces ih =>
    cases pieces with
    | nil =>
      obtain rfl := List.mem_singleton.1 h
      simp
    | cons next pieces =>
      rw [List.intercalate_cons_cons, List.append_assoc]
      rcases List.mem_cons.1 h with rfl | h
      · exact (List.prefix_append _ _).isInfix
      · apply (ih h).trans (List.IsSuffix.isInfix _)
        exact (List.suffix_append [joint] _).trans (List.suffix_append first _)

@[simp] theorem intercalate_append_cons (left piece : List α) (pieces : List (List α)) :
    List.intercalate [joint] ((left ++ piece) :: pieces) =
      left ++ List.intercalate [joint] (piece :: pieces) := by
  cases pieces <;> simp

end Joining

section Dividing

variable {α : Type} {list : List α}

theorem notMem_of_mem_splitOn [DecidableEq α] {separator : α} {piece : List α}
    (h : piece ∈ list.splitOn separator) : separator ∉ piece := by
  induction list generalizing piece with
  | nil => simp_all
  | cons a list ih =>
    obtain ⟨first, pieces, hpieces⟩ :=
      List.exists_cons_of_ne_nil (List.splitOn_ne_nil separator list)
    rw [List.splitOn_cons_eq_if_modifyHead] at h
    split at h
    · rcases List.mem_cons.1 h with rfl | h
      · exact List.not_mem_nil
      · exact ih h
    · rename_i ha
      rw [hpieces] at h ih
      rcases List.mem_cons.1 h with rfl | h
      · have hfirst := ih List.mem_cons_self
        have hne : separator ≠ a := by
          rintro rfl
          simp at ha
        simp [hfirst, hne]
      · exact ih (List.mem_cons_of_mem first h)

theorem exists_mem_splitOnP (isCut : α → Bool) {a : α} (hmem : a ∈ list) (ha : isCut a = false) :
    ∃ piece ∈ list.splitOnP isCut, a ∈ piece := by
  induction list with
  | nil => cases hmem
  | cons head list ih =>
    rw [List.splitOnP_cons_eq_if_modifyHead]
    obtain ⟨first, pieces, hpieces⟩ := List.exists_cons_of_ne_nil (List.splitOnP_ne_nil isCut list)
    rcases List.mem_cons.1 hmem with rfl | hmem
    · rw [ha, hpieces]
      exact ⟨a :: first, by simp, List.mem_cons_self⟩
    · obtain ⟨piece, hpiece, hin⟩ := ih hmem
      split
      · exact ⟨piece, List.mem_cons_of_mem _ hpiece, hin⟩
      · rw [hpieces] at hpiece ⊢
        rcases List.mem_cons.1 hpiece with rfl | hpiece
        · exact ⟨head :: piece, List.mem_cons_self, List.mem_cons_of_mem head hin⟩
        · exact ⟨piece, List.mem_cons_of_mem _ hpiece, hin⟩

end Dividing

end LineShell
