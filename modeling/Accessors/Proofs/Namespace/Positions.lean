import Accessors.Proofs.Format.Slots
import Accessors.Proofs.Namespace.Parameters

/-!
# Keys with a position out of range

A text with a position above the largest one has no arguments, so its key is skipped: it has no
accessor, and a notice says why. A position with a leading zero is not read as one. Its text is
passed over, and the key keeps its accessors.
-/

namespace Accessors.Namespace

open Format (Outside Specifier parts)
open Format.Placeholder (decimal isPositiveDigit positionLimit scan)
open Record (PluralRule StringEntry StringTable)

/-- The key of the table has no accessor, and one notice says that its arguments are not in
order. -/
structure Skipped (options : Options) (records : List StringTable) (table key : String) : Prop where
  reported : ∃ held ∈ (collectTables records).value, held.name = table ∧
    ∃ notice, (contextOf options held).leaves key = ⟨[], [notice]⟩ ∧ notice.rejects key table
  absent : ∀ path leaf, ((strings options records).value.node "string").Has path leaf →
    ∃ held ∈ (collectTables records).value, ∃ other,
      leaf ∈ ((contextOf options held).leaves other).value ∧ ¬ (held.name = table ∧ other = key)

variable {options : Options} {records : List StringTable} {table key : String} {locale : Locale}
  {entry : StringEntry} {e : Format.FormatError}

theorem leaves_of_arguments_error {context : TableContext}
    (hentry : Among (context.entriesOf key) entry)
    (he : Format.arguments entry.value entry.pluralRules = .error e) :
    ∃ notice, context.leaves key = ⟨[], [notice]⟩ ∧ notice.rejects key context.table.name := by
  cases h : argumentsOf key context.table.name (context.entriesOf key) with
  | error notice => exact ⟨notice, TableContext.leaves_error h, (argumentsOf_error h).1⟩
  | ok found =>
    obtain ⟨list, hlist⟩ := (argumentsOf_ok h).1.parses entry hentry
    cases he.symm.trans hlist

theorem skipped_of_arguments_error (hentry : localized? records table locale key = some entry)
    (he : Format.arguments entry.value entry.pluralRules = .error e) :
    Skipped options records table key := by
  have hrepresents := collectTables_represents records
  have htable : table ∈ (collectTables records).value.map LocalizedTable.name := by
    by_contra hnone
    have hunmet : localized? records table locale key = none :=
      hrepresents.localized?_eq_none
        (fun held hheld hname => absurd (List.mem_map.mpr ⟨held, hheld, hname⟩) hnone) key
    cases hunmet.symm.trans hentry
  obtain ⟨held, hheld, rfl⟩ := List.mem_map.mp htable
  obtain ⟨variant, hv, -, hget⟩ := (hrepresents.exists_variant_iff hheld).mpr hentry
  have hamong : Among ((contextOf options held).entriesOf key) entry :=
    TableContext.among_entriesOf_iff.mpr ⟨variant, hv, hget⟩
  obtain ⟨notice, hleaves, hrejects⟩ := leaves_of_arguments_error hamong he
  refine ⟨⟨held, hheld, rfl, notice, hleaves, hrejects⟩, fun path leaf hleaf => ?_⟩
  obtain ⟨other, hother, otherKey, hmem⟩ := exists_key_of_has hleaf
  refine ⟨other, hother, otherKey, hmem, fun ⟨hname, hkey⟩ => ?_⟩
  obtain rfl := hrepresents.eq_of_name hother hheld hname
  rw [hkey, hleaves] at hmem
  cases hmem

/-- A position without a leading zero that is above the largest one leaves its text without
arguments and its key without accessors. A position with a leading zero, be it zero or above the
largest one, is passed over together with what it belongs to. -/
theorem positions_rejected (value : String) (digits back : List Char) (letter : Char)
    (hdigits : digits ≠ []) (hdecimal : ∀ d ∈ digits, d.isDigit = true)
    (hletter : (Specifier.ofConversion? letter).isSome = true)
    (h : Outside value.toList ('%' :: (digits ++ '$' :: letter :: back))) :
    (digits.head? ≠ some '0' → 0 < decimal digits ∧ (256 < decimal digits →
        (∀ rules, ∃ e, Format.arguments value rules = .error e) ∧
          ∀ options records table key locale entry,
            localized? records table locale key = some entry → entry.value = value →
              Skipped options records table key)) ∧
      (digits.head? = some '0' →
        (∃ before, scan value.toList =
          before ++ scan ('%' :: (digits ++ '$' :: letter :: back))) ∧
          scan ('%' :: (digits ++ '$' :: letter :: back)) = scan back) := by
  obtain ⟨specifier, hspecifier⟩ := Option.isSome_iff_exists.mp hletter
  obtain ⟨d, ds, rfl⟩ := List.exists_cons_of_ne_nil hdigits
  obtain ⟨hd, hds⟩ := List.forall_mem_cons.mp hdecimal
  constructor
  · intro hzero
    have hpositive : isPositiveDigit d = true := by
      simpa [isPositiveDigit, hd] using hzero
    refine ⟨(Format.Placeholder.decimal_pos_and_toDigits hpositive hds).1, fun hrange => ?_⟩
    have hmem := Format.mem_parts_of_outside hpositive hds hspecifier h
    have hlimit : 256 < min (decimal (d :: ds)) positionLimit := Nat.lt_min.mpr ⟨hrange, by decide⟩
    have herror : ∀ rules, ∃ e, Format.arguments value rules = .error e := by
      intro rules
      obtain ⟨resolve, harguments⟩ := Format.exists_layout_arguments value rules
      rw [harguments]
      exact Format.exists_error_of_position hmem hlimit
    refine ⟨herror, fun options records table key locale entry hentry hvalue => ?_⟩
    obtain ⟨e, he⟩ := herror entry.pluralRules
    exact skipped_of_arguments_error hentry (hvalue ▸ he)
  · intro hzero
    obtain rfl : d = '0' := Option.some.inj hzero
    have hne : letter ≠ '%' := by
      rintro rfl
      cases hspecifier
    exact ⟨h.scan_eq, Format.scan_leadingZero hds hne⟩

def largePosition : List StringTable := [
  ⟨"Main", .language "en", .ofList [("done", ⟨"100%% of %300$d", none, none⟩)]⟩]

theorem positions_rejected_large :
    Outside "100%% of %300$d".toList ('%' :: (['3', '0', '0'] ++ '$' :: 'd' :: [])) ∧
      256 < decimal ['3', '0', '0'] ∧
      (∃ e, Format.arguments "100%% of %300$d" none = .error e) ∧
      localized? largePosition "Main" (.language "en") "done" =
        some ⟨"100%% of %300$d", none, none⟩ ∧
      Skipped .default largePosition "Main" "done" := by
  have htext : "100%% of %300$d".toList =
      ['1', '0', '0', '%', '%', ' ', 'o', 'f', ' ', '%', '3', '0', '0', '$', 'd'] := by decide
  have houtside : Outside "100%% of %300$d".toList
      ('%' :: (['3', '0', '0'] ++ '$' :: 'd' :: [])) := by
    rw [htext]
    exact .literal (by decide) (.literal (by decide) (.literal (by decide) (.escape
      (.literal (by decide) (.literal (by decide) (.literal (by decide) (.literal (by decide)
        .here)))))))
  have hentry : localized? largePosition "Main" (.language "en") "done" =
      some ⟨"100%% of %300$d", none, none⟩ := by decide +kernel
  obtain ⟨-, hlarge⟩ := (positions_rejected "100%% of %300$d" ['3', '0', '0'] [] 'd' (by decide)
    (by decide) (by decide) houtside).1 (by decide)
  obtain ⟨herror, hskipped⟩ := hlarge (by decide)
  exact ⟨houtside, by decide, herror none, hentry, hskipped _ _ _ _ _ _ hentry rfl⟩

/-- A text with the position zero has arguments, namely none. -/
theorem exists_accepted_position :
    ¬ ∀ (value : String) (digits back : List Char) (letter : Char), digits ≠ [] →
      (∀ d ∈ digits, d.isDigit = true) → (Specifier.ofConversion? letter).isSome = true →
        Outside value.toList ('%' :: (digits ++ '$' :: letter :: back)) →
          decimal digits = 0 ∨ 256 < decimal digits →
            ∀ rules, ∃ e, Format.arguments value rules = .error e := by
  intro h
  have htext : "%0$@".toList = '%' :: (['0'] ++ '$' :: '@' :: []) := by decide
  have hok : Format.arguments "%0$@" none = .ok [] := by cbv
  obtain ⟨e, he⟩ := h "%0$@" ['0'] [] '@' (by decide) (by decide) (by decide) (htext ▸ .here)
    (.inl (by decide)) none
  cases hok.symm.trans he

end Accessors.Namespace
