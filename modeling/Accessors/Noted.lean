import Accessors.Notice
import Accessors.Upsert

/-!
# Values with notices

A step of the compilation has a value and the notices that it gives, in order. Steps that follow one
another give their notices one after the other.
-/

namespace Accessors

structure Noted (α : Type) where
  value : α
  notices : List Notice

namespace Noted

variable {α β : Type}

instance : Monad Noted where
  pure a := ⟨a, []⟩
  bind x f := ⟨(f x.value).value, x.notices ++ (f x.value).notices⟩

def give (notices : List Notice) : Noted Unit := ⟨(), notices⟩

def all (steps : List (Noted α)) : Noted (List α) :=
  ⟨steps.map value, steps.flatMap notices⟩

/-- Updates the first item with the key, or puts a new item behind all if there is none. -/
def upsert {κ : Type} [DecidableEq κ] (key : α → κ) (k : κ) (update : α → Noted α)
    (new : Noted α) : List α → Noted (List α)
  | [] => do
    let item ← new
    return [item]
  | item :: rest =>
    if key item = k then do
      let item ← update item
      return item :: rest
    else do
      let rest ← upsert key k update new rest
      return item :: rest

@[simp] theorem pure_value (a : α) : (pure a : Noted α).value = a := rfl

@[simp] theorem pure_notices (a : α) : (pure a : Noted α).notices = [] := rfl

@[simp] theorem bind_value (x : Noted α) (f : α → Noted β) :
    (x >>= f).value = (f x.value).value := rfl

@[simp] theorem bind_notices (x : Noted α) (f : α → Noted β) :
    (x >>= f).notices = x.notices ++ (f x.value).notices := rfl

@[simp] theorem map_value (f : α → β) (x : Noted α) : (f <$> x).value = f x.value := rfl

@[simp] theorem map_notices (f : α → β) (x : Noted α) : (f <$> x).notices = x.notices :=
  List.append_nil x.notices

@[simp] theorem give_notices (notices : List Notice) : (give notices).notices = notices := rfl

@[simp] theorem all_value (steps : List (Noted α)) : (all steps).value = steps.map value := rfl

@[simp] theorem all_notices (steps : List (Noted α)) :
    (all steps).notices = steps.flatMap notices := rfl

instance : LawfulMonad Noted := LawfulMonad.mk' Noted
  (fun x => congrArg (Noted.mk x.value) (List.append_nil x.notices))
  (fun _ _ => rfl)
  (fun x _ _ => congrArg (Noted.mk _) (List.append_assoc x.notices ..))

theorem foldlM_value (f : β → α → Noted β) (b : β) (items : List α) :
    (items.foldlM f b).value = items.foldl (fun b a => (f b a).value) b := by
  induction items generalizing b with
  | nil => rfl
  | cons a rest ih => exact ih (f b a).value

theorem mem_notices_foldlM {f : β → α → Noted β} {b : β} {items : List α} {notice : Notice}
    (h : notice ∈ (items.foldlM f b).notices) : ∃ b, ∃ a ∈ items, notice ∈ (f b a).notices := by
  induction items generalizing b with
  | nil => cases h
  | cons a rest ih =>
    rcases List.mem_append.mp h with h | h
    · exact ⟨b, a, List.mem_cons_self .., h⟩
    · obtain ⟨b, other, ho, h⟩ := ih h
      exact ⟨b, other, List.mem_cons_of_mem _ ho, h⟩

section Upsert

variable {κ : Type} [DecidableEq κ] {key : α → κ} {k : κ} {change : α → Noted α} {added : Noted α}

theorem value_upsert (items : List α) :
    (upsert key k change added items).value =
      Accessors.upsert key k (fun item => (change item).value) added.value items := by
  induction items with
  | nil => rfl
  | cons item rest ih =>
    rw [upsert, Accessors.upsert]
    split
    · rfl
    · exact congrArg (item :: ·) ih

theorem notices_upsert (items : List α) :
    (∃ item ∈ items, key item = k ∧
        (upsert key k change added items).notices = (change item).notices) ∨
      (∀ item ∈ items, key item ≠ k) ∧
        (upsert key k change added items).notices = added.notices := by
  induction items with
  | nil => exact .inr ⟨nofun, List.append_nil _⟩
  | cons item rest ih =>
    rw [upsert]
    split
    · next hk => exact .inl ⟨item, List.mem_cons_self .., hk, List.append_nil _⟩
    · next hk =>
      rw [bind_notices, pure_notices, List.append_nil]
      rcases ih with ⟨held, hheld, hkey, hnotices⟩ | ⟨hnone, hnotices⟩
      · exact .inl ⟨held, List.mem_cons_of_mem _ hheld, hkey, hnotices⟩
      · exact .inr ⟨List.forall_mem_cons.mpr ⟨hk, hnone⟩, hnotices⟩

end Upsert

end Noted

end Accessors
