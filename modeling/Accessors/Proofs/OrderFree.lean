import Accessors.Proofs.OrderFree.Consensus
import Accessors.Proofs.OrderFree.Folders
import Accessors.Proofs.OrderFree.Tables
import Accessors.Proofs.Template.OrderFree
import Accessors.Proofs.Tree

/-!
# A compilation without an order

The compiled tree does not depend on the order of the records, as long as no string table and no
template is given twice in one locale. Only the texts of the accessors of strings may differ: a key
that the primary variant lacks has its text from the locale that was met first.
-/

namespace Accessors

open Record (PropertyList Resources)
open Accessors.Symbol (Node)

/-- The records of one are those of the other in another order. -/
structure Shuffled (a b : Resources) : Prop where
  strings : a.strings.Perm b.strings
  templates : a.templates.Perm b.templates
  assets : a.assets.Perm b.assets
  imageFiles : a.imageFiles.Perm b.imageFiles
  fonts : a.fonts.Perm b.fonts
  files : a.files.Perm b.files
  propertyLists : a.propertyLists.Perm b.propertyLists

structure OncePerLocale (resources : Resources) : Prop where
  strings : Namespace.OncePerLocale resources.strings
  templates : Template.OncePerLocale resources.templates

variable {a b : Resources}

def Namespace.tree (space : Namespace) : ResourceKind × Node :=
  (space.kind, space.contents.value.node space.name)

theorem enabledNamespaces_tree (options : Options) (resources : Resources) :
    (enabledNamespaces options resources).map (fun space => space.contents.value.node space.name) =
      (((namespaces options resources).map Namespace.tree).filter (options.isEnabled ·.1)).map
        Prod.snd := by
  simp [enabledNamespaces, Namespace.tree, List.filter_map, Function.comp_def]

theorem propertyLists_eq_of_perm (options : Options) {lists others : List PropertyList}
    (h : lists.Perm others) :
    ((buckets PropertyList.name lists).map fun bucket => Namespace.tree
        ⟨.propertyLists, bucket.1, Namespace.propertyList options bucket.1 bucket.2⟩) =
      (buckets PropertyList.name others).map fun bucket => Namespace.tree
        ⟨.propertyLists, bucket.1, Namespace.propertyList options bucket.1 bucket.2⟩ := by
  refine map_buckets_eq_of_perm h fun name => ?_
  simp only [Namespace.tree, Namespace.propertyList_eq_of_perm options name (h.filter _)]

theorem trees_eq_of_shuffled (options : Options) (h : Shuffled a b) (hd : OncePerLocale a) :
    ((namespaces options a).tail.map Namespace.tree) =
      (namespaces options b).tail.map Namespace.tree := by
  have htemplates := Template.mergeAll_eq_of_perm h.templates hd.templates
  have himages := Namespace.images_eq_of_perm options h.assets h.imageFiles
  have hcolors := Namespace.colors_eq_of_perm options h.assets
  have hdata := Namespace.data_eq_of_perm options h.assets
  have hfonts := Namespace.fonts_eq_of_perm h.fonts
  have hfiles := Namespace.files_eq_of_perm options h.files
  have hlists := propertyLists_eq_of_perm options h.propertyLists
  simp only [namespaces, List.cons_append, List.tail_cons, List.nil_append, List.map_cons,
    List.map_map, Function.comp_def, hlists]
  simp only [Namespace.tree, htemplates, himages, hcolors, hdata, hfonts, hfiles]

def childView (name : String) (subtree : Node) : String × Node :=
  (subtree.name, Node.withoutTextsAt name { subtree with name := Identifier.ofName subtree.name })

theorem aggregate_withoutTextsBelow (rootName name : String) {subtrees others : List Node}
    (h : subtrees.map (childView name) = others.map (childView name)) :
    (aggregate rootName subtrees).value.withoutTextsBelow name =
      (aggregate rootName others).value.withoutTextsBelow name := by
  have hviews : ∀ trees : List Node,
      Namespace.views (Namespace.Contents.edit id (Node.withoutTextsAt name))
          (trees.map fun tree => .plain tree.name
            (.ofChild { tree with name := Identifier.ofName tree.name })) =
        (trees.map (childView name)).map fun view => (view.1, .ofChild view.2) := by
    intro trees
    simp only [Namespace.views, List.map_map, Function.comp_def, Namespace.Member.plain,
      Noted.pure_value, Namespace.Contents.edit_ofChild, childView]
  simp only [aggregate, Noted.bind_value, Noted.pure_value, Node.withoutTextsBelow_eq_edit,
    Namespace.Contents.edit_node]
  congr 1
  refine Namespace.view_assemble_eq_of_perm (Namespace.Contents.edit_concat _ _)
    (List.Perm.of_eq ?_) _ _ _
  rw [hviews, hviews, h]

theorem childView_strings (contents : Namespace.Contents) :
    childView "string" (contents.node "string") =
      ("string", contents.withoutTexts.node "string") := by
  have hname : Identifier.ofName "string" = "string" := by decide +kernel
  rw [childView, Namespace.Contents.rename_node, Namespace.Contents.name_node, hname,
    Node.withoutTextsAt, if_pos (Namespace.Contents.name_node _ _),
    Namespace.Contents.withoutTexts_node]

theorem gather_order_free (options : Options) (h : Shuffled a b) (hd : OncePerLocale a) :
    (gather options a).value.withoutTextsBelow "string" =
        (gather options b).value.withoutTextsBelow "string" ∧
      (options.isEnabled .strings = false →
        (gather options a).value = (gather options b).value) := by
  have hsplit : ∀ resources, (namespaces options resources).map Namespace.tree =
      (.strings, (Namespace.strings options resources.strings).value.node "string") ::
        (namespaces options resources).tail.map Namespace.tree := fun _ => rfl
  have hrest := trees_eq_of_shuffled options h hd
  rw [gather_value, gather_value, enabledNamespaces_tree, enabledNamespaces_tree, hsplit, hsplit,
    hrest]
  cases he : options.isEnabled .strings with
  | false =>
    simp only [List.filter_cons, he, Bool.false_eq_true, if_false]
    exact ⟨trivial, fun _ => trivial⟩
  | true =>
    simp only [List.filter_cons, he, if_true, List.map_cons]
    refine ⟨aggregate_withoutTextsBelow _ _ ?_, nofun⟩
    rw [List.map_cons, List.map_cons, childView_strings, childView_strings,
      Namespace.strings_withoutTexts_eq_of_perm options h.strings hd.strings]

/-- The compiled tree is the same in any order of the records, but for the texts of the accessors of
strings. -/
theorem compile_order_free (options : Options) (h : Shuffled a b) (hd : OncePerLocale a) :
    (compile options a).value.withoutTextsBelow "string" =
        (compile options b).value.withoutTextsBelow "string" ∧
      (options.isEnabled .strings = false →
        (compile options a).value = (compile options b).value) := by
  obtain ⟨htexts, hequal⟩ := gather_order_free options h hd
  rw [compile_value, compile_value, ← Node.propagate_withoutTextsBelow,
    ← Node.propagate_withoutTextsBelow, htexts]
  exact ⟨rfl, fun he => congrArg Node.propagate (hequal he)⟩

def sampleLocalized : Resources := { sampleResources with
  strings := [
    ⟨"Main", .language "en", .ofList [("greeting", ⟨"Hello %@", none, none⟩)]⟩,
    ⟨"Main", .language "de", .ofList [("greeting", ⟨"Hallo %@", none, none⟩)]⟩]
  imageFiles := [⟨"icon@2x.png"⟩, ⟨"logo.png"⟩, ⟨"icon.png"⟩] }

def sampleReversed : Resources := { sampleLocalized with
  strings := sampleLocalized.strings.reverse
  templates := sampleLocalized.templates.reverse
  imageFiles := sampleLocalized.imageFiles.reverse }

theorem compile_order_free_sample :
    Shuffled sampleLocalized sampleReversed ∧ OncePerLocale sampleLocalized ∧
      (Namespace.collectTables sampleLocalized.strings).value.map
          (fun table => (table.primary none).locale) = [.language "en"] ∧
      (Namespace.collectTables sampleReversed.strings).value.map
          (fun table => (table.primary none).locale) = [.language "de"] ∧
      (compile .default sampleLocalized).value.withoutTextsBelow "string" =
        (compile .default sampleReversed).value.withoutTextsBelow "string" ∧
      (compile (Options.default.disable .strings) sampleLocalized).value =
        (compile (Options.default.disable .strings) sampleReversed).value := by
  have hshuffled : Shuffled sampleLocalized sampleReversed :=
    ⟨(List.reverse_perm _).symm, (List.reverse_perm _).symm, .refl _, (List.reverse_perm _).symm,
      .refl _, .refl _, .refl _⟩
  have honce : OncePerLocale sampleLocalized := by
    constructor
    · unfold Namespace.OncePerLocale
      decide
    · unfold Template.OncePerLocale
      decide
  refine ⟨hshuffled, honce, by decide +kernel, by decide +kernel,
    (compile_order_free .default hshuffled honce).1, ?_⟩
  exact (compile_order_free (Options.default.disable .strings) hshuffled honce).2 (by decide)

end Accessors
