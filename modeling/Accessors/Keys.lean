/-!
# Keys in order

Keys are texts, ordered by code point. `distinct` sorts a list of keys and drops repetitions;
`buckets` sorts items by key into one bucket per key, each bucket in the order of the items.
-/

namespace Accessors

def Increasing (keys : List String) : Prop := keys.Pairwise (· < ·)

instance (keys : List String) : Decidable (Increasing keys) :=
  inferInstanceAs (Decidable (keys.Pairwise (· < ·)))

def insertKey (key : String) : List String → List String
  | [] => [key]
  | k :: rest =>
    if key < k then key :: k :: rest
    else if key = k then k :: rest
    else k :: insertKey key rest

def distinct (keys : List String) : List String := keys.foldr insertKey []

theorem mem_insertKey {key k : String} {keys : List String} :
    k ∈ insertKey key keys ↔ k = key ∨ k ∈ keys := by
  induction keys with
  | nil => simp [insertKey]
  | cons x rest ih =>
    rw [insertKey]
    split
    · simp
    · split
      · next h => subst h; simp
      · simp only [ih, List.mem_cons]; exact or_left_comm

theorem increasing_insertKey (key : String) {keys : List String} (h : Increasing keys) :
    Increasing (insertKey key keys) := by
  induction keys with
  | nil => simp [insertKey, Increasing]
  | cons x rest ih =>
    have hx := List.pairwise_cons.mp h
    rw [insertKey]
    split
    · next hlt =>
      exact List.pairwise_cons.mpr
        ⟨fun y hy => (List.mem_cons.mp hy).elim (fun e => e ▸ hlt)
          (fun hy => String.lt_trans hlt (hx.1 y hy)), h⟩
    · split
      · exact h
      · next hlt hne =>
        refine List.pairwise_cons.mpr ⟨fun y hy => ?_, ih hx.2⟩
        rcases mem_insertKey.mp hy with rfl | hy
        · exact Std.lt_of_le_of_ne (String.not_lt.mp hlt) (Ne.symm hne)
        · exact hx.1 y hy

@[simp] theorem mem_distinct {key : String} {keys : List String} :
    key ∈ distinct keys ↔ key ∈ keys := by
  induction keys with
  | nil => simp [distinct]
  | cons x rest ih =>
    show key ∈ insertKey x (distinct rest) ↔ _
    rw [mem_insertKey, ih, List.mem_cons]

theorem increasing_distinct (keys : List String) : Increasing (distinct keys) := by
  induction keys with
  | nil => exact List.Pairwise.nil
  | cons x rest ih => exact increasing_insertKey x ih

theorem eq_of_pairwise_of_mem_iff {α : Type} {r : α → α → Prop} {xs ys : List α}
    (hasymm : ∀ a b, r a b → ¬ r b a) (hxs : xs.Pairwise r) (hys : ys.Pairwise r)
    (h : ∀ a, a ∈ xs ↔ a ∈ ys) : xs = ys := by
  have hne : ∀ {a b}, r a b → a ≠ b := fun hab he => hasymm _ _ hab (he ▸ hab)
  refine List.Perm.eq_of_pairwise (fun a b _ _ hab hba => absurd hba (hasymm a b hab)) hxs hys ?_
  exact (List.perm_ext_iff_of_nodup (hxs.imp hne) (hys.imp hne)).mpr h

theorem Increasing.eq_of_mem_iff {xs ys : List String} (hx : Increasing xs) (hy : Increasing ys)
    (h : ∀ k, k ∈ xs ↔ k ∈ ys) : xs = ys :=
  eq_of_pairwise_of_mem_iff (fun _ _ => String.lt_asymm) hx hy h

theorem Increasing.nodup {keys : List String} (h : Increasing keys) : keys.Nodup := by
  refine List.Pairwise.imp (fun {a b} hlt => ?_) h
  rintro rfl
  exact String.lt_irrefl a hlt

def buckets {α : Type} (key : α → String) (items : List α) : List (String × List α) :=
  (distinct (items.map key)).map fun k => (k, items.filter fun item => key item == k)

theorem mem_buckets_iff {α : Type} {key : α → String} {items : List α} {bucket : String × List α} :
    bucket ∈ buckets key items ↔
      (∃ item ∈ items, key item = bucket.1) ∧ bucket.2 = items.filter (key · == bucket.1) := by
  simp only [buckets, List.mem_map, mem_distinct]
  constructor
  · rintro ⟨k, hk, rfl⟩
    exact ⟨hk, rfl⟩
  · rintro ⟨hk, he⟩
    exact ⟨bucket.1, hk, Prod.ext rfl he.symm⟩

theorem keys_buckets {α : Type} (key : α → String) (items : List α) :
    (buckets key items).map Prod.fst = distinct (items.map key) := by
  simp [buckets, Function.comp_def]

theorem increasing_keys_buckets {α : Type} (key : α → String) (items : List α) :
    Increasing ((buckets key items).map Prod.fst) :=
  keys_buckets key items ▸ increasing_distinct _

end Accessors
