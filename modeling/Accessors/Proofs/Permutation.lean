import Mathlib.Data.List.Nodup
import Accessors.Dictionary
import Accessors.Locale

/-!
# Lists in another order

What is sorted forgets the order that its items came in: lists of the same members that are in the
same strict order are equal. So the keys of a list, the entries of a dictionary, and items sorted by
locales that are all distinct do not depend on that order.
-/

namespace Accessors

variable {α β κ : Type}

theorem distinct_congr {xs ys : List String} (h : ∀ key, key ∈ xs ↔ key ∈ ys) :
    distinct xs = distinct ys := by
  refine Increasing.eq_of_mem_iff (increasing_distinct xs) (increasing_distinct ys) fun key => ?_
  rw [mem_distinct, mem_distinct, h]

theorem entries_ext_lookup {xs ys : List (String × α)} (hx : Increasing (xs.map Prod.fst))
    (hy : Increasing (ys.map Prod.fst)) (h : ∀ key, xs.lookup key = ys.lookup key) : xs = ys := by
  refine entries_ext hx hy fun entry => ?_
  rw [← lookup_eq_some_iff_of_increasing hx, ← lookup_eq_some_iff_of_increasing hy, h]

theorem Dictionary.ext_get? {d e : Dictionary α} (h : ∀ key, d.get? key = e.get? key) : d = e :=
  Dictionary.ext (entries_ext_lookup d.increasing e.increasing h)

theorem lookup_map_keys (keys : List String) (f : String → α) (key : String) :
    (keys.map fun k => (k, f k)).lookup key = if key ∈ keys then some (f key) else none := by
  induction keys with
  | nil => rfl
  | cons k rest ih =>
    rw [List.map_cons, lookup_cons_ite, ih]
    by_cases h : key = k <;> simp [h]

theorem perm_map_of_keys {key : α → κ} {f : α → β} {xs ys : List α}
    (hxs : (xs.map key).Nodup) (hys : (ys.map key).Nodup)
    (hkeys : ∀ k, k ∈ xs.map key ↔ k ∈ ys.map key)
    (hf : ∀ x ∈ xs, ∀ y ∈ ys, key x = key y → f x = f y) :
    (xs.map fun x => (key x, f x)).Perm (ys.map fun y => (key y, f y)) := by
  have hnodup : ∀ {items : List α}, (items.map key).Nodup →
      (items.map fun item => (key item, f item)).Nodup := fun {items} hd =>
    List.Nodup.of_map Prod.fst (by rwa [List.map_map])
  refine (List.perm_ext_iff_of_nodup (hnodup hxs) (hnodup hys)).mpr fun pair => ?_
  simp only [List.mem_map] at hkeys ⊢
  constructor
  · rintro ⟨x, hx, rfl⟩
    obtain ⟨y, hy, hk⟩ := (hkeys (key x)).mp ⟨x, hx, rfl⟩
    exact ⟨y, hy, by rw [hk, hf x hx y hy hk.symm]⟩
  · rintro ⟨y, hy, rfl⟩
    obtain ⟨x, hx, hk⟩ := (hkeys (key y)).mpr ⟨y, hy, rfl⟩
    exact ⟨x, hx, by rw [hk, hf x hx y hy hk]⟩

theorem map_buckets_eq_of_perm {key : α → String} {f : String × List α → β} {xs ys : List α}
    (h : xs.Perm ys) (hf : ∀ k, f (k, xs.filter (key · == k)) = f (k, ys.filter (key · == k))) :
    (buckets key xs).map f = (buckets key ys).map f := by
  have hkeys : distinct (xs.map key) = distinct (ys.map key) :=
    distinct_congr fun _ => (h.map key).mem_iff
  rw [buckets, buckets, List.map_map, List.map_map, hkeys]
  exact List.map_congr_left fun k _ => hf k

theorem nodup_eraseDups [DecidableEq α] (items : List α) : items.eraseDups.Nodup := by
  match items with
  | [] => exact List.nodup_nil
  | item :: rest =>
    rw [List.eraseDups_cons]
    refine List.nodup_cons.mpr ⟨fun h => ?_, nodup_eraseDups _⟩
    simpa using (List.mem_filter.mp (List.mem_eraseDups.mp h)).2
termination_by items.length
decreasing_by exact Nat.lt_succ_of_le (List.length_filter_le ..)

theorem eraseDups_perm [DecidableEq α] {xs ys : List α} (h : xs.Perm ys) :
    xs.eraseDups.Perm ys.eraseDups := by
  refine (List.perm_ext_iff_of_nodup (nodup_eraseDups xs) (nodup_eraseDups ys)).mpr fun a => ?_
  rw [List.mem_eraseDups, List.mem_eraseDups, h.mem_iff]

namespace Locale

theorem le_antisymm {a b : Locale} (hab : a.le b = true) (hba : b.le a = true) : a = b := by
  cases a <;> cases b <;> simp_all [le]
  exact String.le_antisymm hab hba

def Before (a b : Locale) : Prop := a.le b = true ∧ a ≠ b

theorem Before.asymm {a b : Locale} (h : a.Before b) : ¬ b.Before a :=
  fun h' => h.2 (le_antisymm h.1 h'.1)

theorem pairwise_mergeSort {locale : α → Locale} {items : List α}
    (hd : (items.map locale).Nodup) :
    (items.mergeSort fun a b => (locale a).le (locale b)).Pairwise fun a b =>
      (locale a).Before (locale b) := by
  have hsorted : (items.mergeSort fun a b => (locale a).le (locale b)).Pairwise fun a b =>
      (locale a).le (locale b) = true :=
    List.pairwise_mergeSort (fun a b c => le_trans (locale a) (locale b) (locale c))
      (fun a b => le_total (locale a) (locale b)) items
  have hne := ((List.mergeSort_perm items fun a b => (locale a).le (locale b)).map
    locale).nodup_iff.mpr hd
  exact hsorted.and (List.pairwise_map.mp hne)

theorem mergeSort_eq_of_perm {locale : α → Locale} {xs ys : List α} (h : xs.Perm ys)
    (hd : (xs.map locale).Nodup) :
    (xs.mergeSort fun a b => (locale a).le (locale b)) =
      ys.mergeSort fun a b => (locale a).le (locale b) := by
  refine eq_of_pairwise_of_mem_iff (fun a b => Before.asymm) (pairwise_mergeSort hd)
    (pairwise_mergeSort ((h.map locale).nodup_iff.mp hd)) fun item => ?_
  rw [List.mem_mergeSort, List.mem_mergeSort, h.mem_iff]

end Locale

end Accessors
