import Mathlib.Data.List.Chain
import Accessors.Text.LetterCase
import Accessors.Text.Letters

/-!
# Case forms of letters

The upper and lower case forms of characters are letters, but for combining marks: some letters have
a form that is written as another letter with a mark. Only the capital I with a dot has such a lower
case form. A lower case form that differs from its character is not an upper case letter.

The tables are checked by ranges: what a range maps to lies in one stretch of letters, or is looked
up one by one.
-/

namespace Accessors.Text

def Precedes (a b : Nat × Nat) : Prop := a.1 ≤ a.2 ∧ a.2 < b.1

instance (a b : Nat × Nat) : Decidable (Precedes a b) := inferInstanceAs (Decidable (_ ∧ _))

instance : IsTrans (Nat × Nat) Precedes where
  trans := by
    rintro a b c ⟨ha, hab⟩ ⟨hb, hbc⟩
    exact ⟨ha, by omega⟩

theorem within_of_mem {stretches : List (Nat × Nat)} {s : Nat × Nat} {n : Nat}
    (h : stretches.Pairwise Precedes) (hs : s ∈ stretches) (hlow : s.1 ≤ n) (hhigh : n ≤ s.2) :
    within stretches n = true := by
  induction stretches with
  | nil => cases hs
  | cons first rest ih =>
    obtain ⟨hfirst, hrest⟩ := List.pairwise_cons.mp h
    rw [within]
    rcases List.mem_cons.mp hs with rfl | hs
    · rw [if_neg (Nat.not_lt.mpr hlow), if_pos hhigh]
    · obtain ⟨hle, hlt⟩ := hfirst s hs
      rw [if_neg (by omega), if_neg (by omega)]
      exact ih hrest hs

theorem exists_of_onGrid {stretches : List (Nat × Nat × Nat)} {n : Nat}
    (h : onGrid stretches n = true) :
    ∃ s ∈ stretches, s.1 ≤ n ∧ n ≤ s.2.1 ∧ onGrid [s] n = true := by
  induction stretches with
  | nil => cases h
  | cons first rest ih =>
    by_cases hhere : first.1 ≤ n ∧ n ≤ first.2.1
    · obtain ⟨hlow, hhigh⟩ := hhere
      refine ⟨first, List.mem_cons_self .., hlow, hhigh, ?_⟩
      rw [onGrid, if_neg (Nat.not_lt.mpr hlow), if_pos hhigh] at h ⊢
      exact h
    · rw [onGrid] at h
      split at h
      · cases h
      · next hlow =>
        rw [if_neg fun hhigh => hhere ⟨Nat.not_lt.mp hlow, hhigh⟩] at h
        obtain ⟨s, hs, hn⟩ := ih h
        exact ⟨s, List.mem_cons_of_mem _ hs, hn⟩

theorem letterRanges_ordered : letterRanges.Pairwise Precedes :=
  List.isChain_iff_pairwise.mp (by decide +kernel)

namespace CaseRange

def targets (r : CaseRange) : List Nat :=
  ((List.range (r.last - r.first + 1)).filter (· % r.step == 0)).map (r.target + ·)

def lastTarget (r : CaseRange) : Nat := r.target + (r.last - r.first)

theorem bounds_of_mem_targets {r : CaseRange} {n : Nat} (h : n ∈ r.targets) :
    r.target ≤ n ∧ n ≤ r.lastTarget := by
  obtain ⟨distance, hd, rfl⟩ := List.mem_map.mp h
  have hlt := List.mem_range.mp (List.mem_filter.mp hd).1
  exact ⟨Nat.le_add_right .., Nat.add_le_add_left (Nat.le_of_lt_succ hlt) _⟩

theorem lookup_cases (map : List CaseRange) (n : Nat) :
    lookup map n = n ∨ ∃ r ∈ map, lookup map n ∈ r.targets := by
  induction map with
  | nil => exact .inl rfl
  | cons r rest ih =>
    rw [lookup]
    split
    · exact .inl rfl
    · split
      · split
        · next hstep =>
          refine .inr ⟨r, List.mem_cons_self .., List.mem_map.mpr ⟨n - r.first, ?_, rfl⟩⟩
          exact List.mem_filter.mpr ⟨List.mem_range.mpr (by omega), beq_iff_eq.mpr hstep⟩
        · exact .inl rfl
      · exact ih.imp_right fun ⟨r', hm, htarget⟩ => ⟨r', List.mem_cons_of_mem _ hm, htarget⟩

def staysLetter (r : CaseRange) : Bool :=
  letterRanges.any (fun s => s.1.ble r.target && r.lastTarget.ble s.2) ||
    r.targets.all (within letterRanges)

theorem within_of_staysLetter {r : CaseRange} (h : r.staysLetter = true) {n : Nat}
    (hn : n ∈ r.targets) : within letterRanges n = true := by
  obtain ⟨hlow, hhigh⟩ := bounds_of_mem_targets hn
  rcases Bool.or_eq_true_iff.mp h with h | h
  · obtain ⟨s, hs, hbounds⟩ := List.any_eq_true.mp h
    obtain ⟨hfirst, hlast⟩ := Bool.and_eq_true_iff.mp hbounds
    exact within_of_mem letterRanges_ordered hs ((Nat.le_of_ble_eq_true hfirst).trans hlow)
      (hhigh.trans (Nat.le_of_ble_eq_true hlast))
  · exact List.all_eq_true.mp h n hn

def misses (r : CaseRange) (s : Nat × Nat × Nat) : Bool :=
  r.lastTarget.blt s.1 || s.2.1.blt r.target ||
    r.targets.all fun n => !onGrid [s] n

theorem not_onGrid {r : CaseRange} {stretches : List (Nat × Nat × Nat)}
    (h : stretches.all r.misses = true) {n : Nat} (hn : n ∈ r.targets) :
    onGrid stretches n = false := by
  refine Bool.eq_false_iff.mpr fun hgrid => ?_
  obtain ⟨s, hs, hfirst, hlast, hhere⟩ := exists_of_onGrid hgrid
  obtain ⟨hlow, hhigh⟩ := bounds_of_mem_targets hn
  rcases Bool.or_eq_true_iff.mp (List.all_eq_true.mp h s hs) with h | h
  · rcases Bool.or_eq_true_iff.mp h with h | h
    · have := Nat.le_of_ble_eq_true h
      omega
    · have := Nat.le_of_ble_eq_true h
      omega
  · have := List.all_eq_true.mp h n hn
    simp [hhere] at this

end CaseRange

theorem upperMap_staysLetter : upperMap.all CaseRange.staysLetter = true := by decide +kernel

theorem lowerMap_staysLetter : lowerMap.all CaseRange.staysLetter = true := by decide +kernel

theorem lowerMap_misses : (lowerMap.all fun r => upperRanges.all r.misses) = true := by
  decide +kernel

def CaseRange.IsValid (r : CaseRange) : Prop :=
  r.lastTarget < 0xD800 ∨ 0xDFFF < r.target ∧ r.lastTarget < 0x110000

instance (r : CaseRange) : Decidable r.IsValid := inferInstanceAs (Decidable (_ ∨ _))

theorem CaseRange.IsValid.toNat_ofNat {r : CaseRange} (h : r.IsValid) {n : Nat}
    (hn : n ∈ r.targets) : (Char.ofNat n).toNat = n := by
  obtain ⟨hlow, hhigh⟩ := bounds_of_mem_targets hn
  have hvalid : n.isValidChar :=
    h.imp hhigh.trans_lt fun h => ⟨h.1.trans_le hlow, hhigh.trans_lt h.2⟩
  rw [Char.ofNat, dif_pos hvalid]
  rfl

theorem CaseRange.isLetter_of_mem_targets {r : CaseRange} (hv : r.IsValid)
    (h : r.staysLetter = true) {n : Nat} (hn : n ∈ r.targets) :
    isLetter (Char.ofNat n) = true := by
  rw [isLetter, hv.toNat_ofNat hn]
  exact within_of_staysLetter h hn

theorem upperMap_valid : ∀ r ∈ upperMap, r.IsValid := by decide +kernel

theorem lowerMap_valid : ∀ r ∈ lowerMap, r.IsValid := by decide +kernel

def caseMarks : List Char :=
  ['\u0300', '\u0301', '\u0307', '\u0308', '\u030A', '\u030C', '\u0313', '\u0331', '\u0342']

theorem mapCase_cases (expansions : List (Nat × List Nat)) (map : List CaseRange) (c : Char) :
    mapCase expansions map c = [c] ∨
      (∃ r ∈ map, ∃ n ∈ r.targets, mapCase expansions map c = [Char.ofNat n]) ∨
      ∃ expansion, (c.toNat, expansion) ∈ expansions ∧
        mapCase expansions map c = expansion.map Char.ofNat := by
  unfold mapCase
  split
  · next expansion he =>
    obtain ⟨first, second, rfl, -⟩ := List.lookup_eq_some_iff.mp he
    exact .inr (.inr ⟨expansion, by simp, rfl⟩)
  · rcases CaseRange.lookup_cases map c.toNat with he | ⟨r, hr, htarget⟩
    · rw [he, Char.ofNat_toNat]
      exact .inl rfl
    · exact .inr (.inl ⟨r, hr, _, htarget, rfl⟩)

theorem upperExpansions_letters : ∀ e ∈ upperExpansions,
    (e.2.map Char.ofNat).head?.any isLetter = true ∧
      ∀ d ∈ e.2.map Char.ofNat, isLetter d = true ∨ d ∈ caseMarks := by decide +kernel

theorem toUpper_cases (c : Char) :
    toUpper c = [c] ∨ (toUpper c).head?.any isLetter = true ∧
      ∀ d ∈ toUpper c, isLetter d = true ∨ d ∈ caseMarks := by
  rcases mapCase_cases upperExpansions upperMap c with h | ⟨r, hr, n, hn, h⟩ | ⟨expansion, he, h⟩
  · exact .inl h
  · have hletter := CaseRange.isLetter_of_mem_targets (upperMap_valid r hr)
      (List.all_eq_true.mp upperMap_staysLetter r hr) hn
    refine .inr ?_
    rw [toUpper, h]
    exact ⟨hletter, fun d hd => .inl (List.mem_singleton.mp hd ▸ hletter)⟩
  · refine .inr ?_
    rw [toUpper, h]
    exact upperExpansions_letters _ he

theorem toLower_cases (c : Char) :
    toLower c = [c] ∨ (∃ d, toLower c = [d] ∧ isLetter d = true ∧ isUpper d = false) ∨
      c = '\u0130' ∧ toLower c = ['i', '\u0307'] := by
  rcases mapCase_cases lowerExpansions lowerMap c with h | ⟨r, hr, n, hn, h⟩ | ⟨expansion, he, h⟩
  · exact .inl h
  · refine .inr (.inl ⟨Char.ofNat n, h, ?_, ?_⟩)
    · exact CaseRange.isLetter_of_mem_targets (lowerMap_valid r hr)
        (List.all_eq_true.mp lowerMap_staysLetter r hr) hn
    · rw [isUpper, (lowerMap_valid r hr).toNat_ofNat hn]
      exact CaseRange.not_onGrid (List.all_eq_true.mp lowerMap_misses r hr) hn
  · obtain ⟨hc, rfl⟩ := Prod.mk.inj (List.mem_singleton.mp he)
    refine .inr (.inr ⟨?_, h⟩)
    rw [← Char.ofNat_toNat c, hc]

theorem upperMap_misses_dotted : (upperMap.all fun r => r.misses (0x130, 0x130, 1)) = true := by
  decide +kernel

theorem upperExpansions_undotted : ∀ e ∈ upperExpansions,
    '\u0130' ∉ e.2.map Char.ofNat := by decide +kernel

theorem eq_of_dotted_mem_toUpper {c : Char} (h : '\u0130' ∈ toUpper c) : c = '\u0130' := by
  rcases mapCase_cases upperExpansions upperMap c with he | ⟨r, hr, n, hn, he⟩ | ⟨expansion, hm, he⟩
  · exact (List.mem_singleton.mp ((show toUpper c = [c] from he) ▸ h)).symm
  · have hdotted := congrArg Char.toNat
      (List.mem_singleton.mp ((show toUpper c = [Char.ofNat n] from he) ▸ h))
    rw [(upperMap_valid r hr).toNat_ofNat hn] at hdotted
    have hmisses : [(0x130, 0x130, 1)].all r.misses = true := by
      simpa using List.all_eq_true.mp upperMap_misses_dotted r hr
    have hoff := CaseRange.not_onGrid hmisses hn
    rw [← hdotted] at hoff
    exact absurd hoff (by decide)
  · rw [show toUpper c = expansion.map Char.ofNat from he] at h
    exact absurd h (upperExpansions_undotted _ hm)

end Accessors.Text
