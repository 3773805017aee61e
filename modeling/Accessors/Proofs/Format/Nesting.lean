import Accessors.Proofs.Format.Reachability

/-!
# Nested resolutions

A resolution calls others for the names that its rule refers to, and hands them the names on the
way. No name is on the way twice and each has a rule, so the calls under way at one time are at most
one more than there are rules. Cut off at that depth, with anything in place of the calls beyond it,
a resolution gives what it gives.
-/

namespace Accessors.Format

open Record (PluralRule)

structure Call where
  visited : List String
  name : String

structure Calls (rules : Dictionary PluralRule) (outer inner : Call) : Prop where
  new : outer.name ∉ outer.visited
  visits : inner.visited = outer.visited ++ [outer.name]
  refers : Refers rules outer.name inner.name

/-- The names on the way differ, and each of them has a rule. -/
structure Call.Proper (rules : Dictionary PluralRule) (call : Call) : Prop where
  nodup : call.visited.Nodup
  subset : call.visited ⊆ rules.keys

def resolveStep (rules : Dictionary PluralRule)
    (resolve : Call → Except FormatError (List Argument)) (call : Call) :
    Except FormatError (List Argument) :=
  if call.name ∈ call.visited then .error (.referenceCyclic (call.visited ++ [call.name]))
  else
    match rules.get? call.name with
    | none => .error (.referenceMissing call.name)
    | some rule =>
      resolveRule (fun reference => resolve ⟨call.visited ++ [call.name], reference⟩) call.name rule

/-- Resolution with at most so many calls inside one another. What would be called beyond them is
answered by `beyond`. -/
def resolveWithin (rules : Dictionary PluralRule)
    (beyond : Call → Except FormatError (List Argument)) :
    Nat → Call → Except FormatError (List Argument)
  | 0 => beyond
  | depth + 1 => resolveStep rules (resolveWithin rules beyond depth)

variable {rules : Dictionary PluralRule} {outer inner call : Call}

theorem resolve_eq_step (rules : Dictionary PluralRule) (call : Call) :
    resolve rules call.visited call.name =
      resolveStep rules (fun inner => resolve rules inner.visited inner.name) call := by
  unfold resolveStep
  by_cases hmet : call.name ∈ call.visited
  · rw [resolve_of_mem hmet, if_pos hmet]
  rw [if_neg hmet]
  cases hrule : rules.get? call.name with
  | none => exact resolve_of_none hmet hrule
  | some rule => exact resolve_of_some hmet hrule

theorem resolveStep_congr {f g : Call → Except FormatError (List Argument)}
    (h : ∀ inner, Calls rules call inner → f inner = g inner) :
    resolveStep rules f call = resolveStep rules g call := by
  unfold resolveStep
  split
  · rfl
  next hnew =>
  split
  · rfl
  next rule hrule =>
  have hfollows : Follows (fun _ => False)
      (resolveRule (fun reference => g ⟨call.visited ++ [call.name], reference⟩) call.name rule)
      (resolveRule (fun reference => f ⟨call.visited ++ [call.name], reference⟩) call.name rule) :=
    follows_resolveRule fun text ht reference hr =>
      .inl (h _ ⟨hnew, rfl, ⟨rule, hrule, text, ht, hr⟩⟩)
  rcases hfollows with heq | ⟨_, _, hfalse⟩
  · exact heq
  · exact hfalse.elim

theorem Calls.length_unvisited_lt (h : Calls rules outer inner) :
    (unvisited rules inner.visited).length < (unvisited rules outer.visited).length := by
  obtain ⟨rule, hrule, -⟩ := h.refers
  rw [h.visits]
  exact Format.length_unvisited_lt (by simpa using h.new) hrule

theorem Calls.proper (h : Calls rules outer inner) (ho : outer.Proper rules) :
    inner.Proper rules := by
  obtain ⟨rule, hrule, -⟩ := h.refers
  constructor
  · rw [h.visits]
    exact List.nodup_append.mpr ⟨ho.nodup, List.nodup_singleton _, fun a ha b hb hab =>
      h.new (List.mem_singleton.mp hb ▸ hab ▸ ha)⟩
  · rw [h.visits]
    refine List.append_subset.mpr ⟨ho.subset, ?_⟩
    rintro name hname
    obtain rfl := List.mem_singleton.mp hname
    exact Dictionary.mem_keys_iff.mpr ⟨rule, hrule⟩

theorem wellFounded_calls (rules : Dictionary PluralRule) :
    WellFounded fun inner outer => Calls rules outer inner :=
  Subrelation.wf Calls.length_unvisited_lt
    (measure fun call : Call => (unvisited rules call.visited).length).wf

theorem proper_of_chain {rest : List Call} (h : (outer :: rest).IsChain (Calls rules))
    (ho : outer.Proper rules) : ∀ call ∈ outer :: rest, call.Proper rules := by
  induction rest generalizing outer with
  | nil =>
    intro call hc
    exact List.mem_singleton.mp hc ▸ ho
  | cons inner rest ih =>
    obtain ⟨hcalls, hrest⟩ := List.isChain_cons_cons.mp h
    exact List.forall_mem_cons.mpr ⟨ho, ih hrest (hcalls.proper ho)⟩

theorem length_le_of_chain {rest : List Call} (h : (outer :: rest).IsChain (Calls rules)) :
    rest.length ≤ (unvisited rules outer.visited).length := by
  induction rest generalizing outer with
  | nil => exact Nat.zero_le _
  | cons inner rest ih =>
    obtain ⟨hcalls, hrest⟩ := List.isChain_cons_cons.mp h
    have hlt := hcalls.length_unvisited_lt
    have hle := ih hrest
    rw [List.length_cons]
    omega

theorem length_unvisited_le (rules : Dictionary PluralRule) (visited : List String) :
    (unvisited rules visited).length ≤ rules.keys.length :=
  List.length_filter_le ..

theorem resolveWithin_eq {beyond : Call → Except FormatError (List Argument)} {depth : Nat}
    (h : (unvisited rules call.visited).length < depth) :
    resolveWithin rules beyond depth call = resolve rules call.visited call.name := by
  induction depth generalizing call with
  | zero => exact absurd h (Nat.not_lt_zero _)
  | succ depth ih =>
    rw [resolve_eq_step]
    refine resolveStep_congr fun inner hcalls => ih ?_
    have hlt := hcalls.length_unvisited_lt
    omega

/-- Resolution ends whatever the rules refer to. A call makes no other calls than those of `Calls`,
and these cannot go on for ever. Inside one another, from a call that has no names on the way,
there are at most one more of them than rules: the names on the way always differ and have rules.
So both a resolution, with any names on the way, and the layout of any text do without the calls
beyond. -/
theorem resolve_nesting (rules : Dictionary PluralRule) :
    (∀ call : Call, resolve rules call.visited call.name =
        resolveStep rules (fun inner => resolve rules inner.visited inner.name) call) ∧
      (∀ (f g : Call → Except FormatError (List Argument)) (call : Call),
        (∀ inner, Calls rules call inner → f inner = g inner) →
          resolveStep rules f call = resolveStep rules g call) ∧
      (WellFounded fun inner outer => Calls rules outer inner) ∧
      (∀ (name : String) (nested : List Call),
        (⟨[], name⟩ :: nested : List Call).IsChain (Calls rules) →
          (∀ call ∈ (⟨[], name⟩ :: nested : List Call),
            call.visited.Nodup ∧ call.visited ⊆ rules.keys) ∧
          (⟨[], name⟩ :: nested : List Call).length ≤ rules.keys.length + 1) ∧
      (∀ (beyond : Call → Except FormatError (List Argument)) (call : Call),
        resolveWithin rules beyond (rules.keys.length + 1) call =
          resolve rules call.visited call.name) ∧
      ∀ (beyond : Call → Except FormatError (List Argument)) (value : String),
        layout (fun name => resolveWithin rules beyond (rules.keys.length + 1) ⟨[], name⟩) none
          (parts value) = arguments value (some rules) := by
  have hwithin : ∀ (beyond : Call → Except FormatError (List Argument)) (call : Call),
      resolveWithin rules beyond (rules.keys.length + 1) call =
        resolve rules call.visited call.name := fun beyond call =>
    resolveWithin_eq (Nat.lt_succ_of_le (length_unvisited_le rules call.visited))
  refine ⟨resolve_eq_step rules, fun f g call => resolveStep_congr, wellFounded_calls rules,
    fun name nested hchain => ⟨fun call hc => ?_, ?_⟩, hwithin, fun beyond value => ?_⟩
  · have hstart : Call.Proper rules ⟨[], name⟩ := ⟨List.nodup_nil, List.nil_subset _⟩
    have hproper := proper_of_chain hchain hstart call hc
    exact ⟨hproper.nodup, hproper.subset⟩
  · rw [List.length_cons]
    exact Nat.succ_le_succ ((length_le_of_chain hchain).trans (length_unvisited_le rules []))
  · have hcalls : (fun name => resolveWithin rules beyond (rules.keys.length + 1) ⟨[], name⟩) =
        resolve rules [] := funext fun name => hwithin beyond ⟨[], name⟩
    rw [hcalls, arguments]

theorem refers_loop : Refers sampleRules "loop" "back" ∧ Refers sampleRules "back" "loop" := by
  have hthere : parts "%1$#@back@" = [.reference (some 1) "back"] := by cbv
  have hback : parts "%#@loop@" = [.reference none "loop"] := by cbv
  constructor
  · refine ⟨⟨PluralRule.countType, "d", .ofList [("one", "%d times"), ("other", "%1$#@back@")]⟩,
      by decide, ("other", "%1$#@back@"), by decide, some 1, ?_⟩
    rw [hthere]
    exact List.mem_singleton_self _
  · refine ⟨⟨PluralRule.countType, "d", .ofList [("other", "%#@loop@")]⟩,
      by decide, ("other", "%#@loop@"), by decide, none, ?_⟩
    rw [hback]
    exact List.mem_singleton_self _

theorem resolve_nesting_loop :
    ([⟨[], "loop"⟩, ⟨["loop"], "back"⟩, ⟨["loop", "back"], "loop"⟩] : List Call).IsChain
        (Calls sampleRules) ∧
      (["loop", "back"].Nodup ∧ ["loop", "back"] ⊆ sampleRules.keys) ∧
      3 ≤ sampleRules.keys.length + 1 ∧
      (∀ inner : Call, Calls sampleRules ⟨[], "files"⟩ inner →
        resolve sampleRules inner.visited inner.name = .ok [⟨some "folders", .uint⟩]) ∧
      resolveStep sampleRules (fun inner => resolve sampleRules inner.visited inner.name)
          ⟨[], "files"⟩ =
        resolveStep sampleRules (fun _ => .ok [⟨some "folders", .uint⟩]) ⟨[], "files"⟩ := by
  obtain ⟨-, hcongr, -, hchains, -⟩ := resolve_nesting sampleRules
  have hchain : ([⟨[], "loop"⟩, ⟨["loop"], "back"⟩, ⟨["loop", "back"], "loop"⟩] :
      List Call).IsChain (Calls sampleRules) :=
    List.isChain_cons_cons.mpr ⟨⟨by decide, rfl, refers_loop.1⟩,
      List.isChain_cons_cons.mpr ⟨⟨by decide, rfl, refers_loop.2⟩, List.isChain_singleton _⟩⟩
  have hfolders : resolve sampleRules ["files"] "folders" = .ok [⟨some "folders", .uint⟩] := by cbv
  have hinner : ∀ inner : Call, Calls sampleRules ⟨[], "files"⟩ inner →
      resolve sampleRules inner.visited inner.name = .ok [⟨some "folders", .uint⟩] := by
    rintro ⟨visited, name⟩ ⟨-, hvisits, hrefers⟩
    obtain rfl := refers_files.mp hrefers
    obtain rfl : visited = ["files"] := hvisits
    exact hfolders
  obtain ⟨hproper, hlength⟩ := hchains "loop" _ hchain
  exact ⟨hchain, hproper ⟨["loop", "back"], "loop"⟩ (by simp), hlength, hinner,
    hcongr _ _ _ hinner⟩

end Accessors.Format
