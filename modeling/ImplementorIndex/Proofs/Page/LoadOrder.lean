import ImplementorIndex.Proofs.Page.Overview

/-!
# The order of loading

The groups of a trait stand in the order in which their namespaces came first, and a list that comes
later replaces an earlier one. So the order of the payloads matters in two ways. Where no namespace of
a trait comes twice there is nothing to replace, and only the order of the groups is left: every list,
every section and the whole overview are the same in whatever order the payloads come. Payloads of
different traits never meet at all.
-/

namespace ImplementorIndex

namespace Groups

variable {groups other : Groups}

theorem get?_eq_of_perm (perm : groups.rows.Perm other.rows) (name : Namespace) :
    groups.get? name = other.get? name := by
  ext entries
  rw [get?, get?, Rows.find?_eq_some_iff groups.distinct, Rows.find?_eq_some_iff other.distinct,
    perm.mem_iff]

theorem entries_perm (perm : groups.rows.Perm other.rows) : groups.entries.Perm other.entries :=
  perm.flatMap_right Prod.snd

theorem namespaceCount_eq_of_perm (perm : groups.rows.Perm other.rows) :
    groups.namespaceCount = other.namespaceCount :=
  perm.length_eq

theorem entryCount_eq_of_perm (perm : groups.rows.Perm other.rows) :
    groups.entryCount = other.entryCount := by
  rw [entryCount_eq_length, entryCount_eq_length, (entries_perm perm).length_eq]

/-- Payloads without a common namespace are put one behind the other. -/
theorem rows_mergeAll_of_apart {payloads : List Payload}
    (apart : payloads.Pairwise fun a b => ∀ name ∈ a.groups.names, name ∉ b.groups.names) :
    (mergeAll payloads).rows = payloads.flatMap fun payload => payload.groups.rows := by
  have distinct : (Rows.keys (payloads.flatMap fun payload => payload.groups.rows)).Nodup := by
    rw [Rows.keys, List.map_flatMap, List.nodup_flatMap]
    refine ⟨fun payload _ => payload.groups.distinct, apart.imp ?_⟩
    intro a b none name here there
    exact none name here there
  rw [mergeAll_eq_ofList, rows_ofList]
  exact Rows.foldl_put_of_nodup distinct

/-- Both traits are known, with the same groups in whatever order, or neither is. -/
def Reordered (known known' : Option Groups) : Prop :=
  Option.Rel (fun groups other : Groups => groups.rows.Perm other.rows) known known'

end Groups

/-- The sections show the same state of a trait, and the same groups in whatever order. -/
inductive Section.Reordered : Section → Section → Prop where
  | notLoaded : Reordered .notLoaded .notLoaded
  | empty : Reordered .empty .empty
  | populated {groups other : List (Namespace × List Entry)} (perm : groups.Perm other) :
    Reordered (.populated groups) (.populated other)

theorem Section.reordered_ofGroups? {known known' : Option Groups}
    (same : Groups.Reordered known known') : (ofGroups? known).Reordered (ofGroups? known') := by
  cases same with
  | none => exact .notLoaded
  | @some groups other perm =>
    rw [ofGroups?, ofGroups?, ← Groups.entryCount_eq_of_perm perm]
    by_cases none : groups.entryCount = 0
    · rw [if_pos none, if_pos none]
      exact .empty
    · rw [if_neg none, if_neg none]
      exact .populated perm

namespace Page

variable {options : RenderOptions} {page other : Page} {key : TraitKey}
  {payloads permuted : List Payload}

/-- The pages differ at most in the order of the groups of each trait. -/
structure SameUpToOrder (page other : Page) : Prop where
  lists : ∀ key name, (page.groups? key).bind (fun groups => groups.get? name) =
    (other.groups? key).bind fun groups => groups.get? name
  implementors : ∀ key, (page.implementors key).Perm (other.implementors key)
  sections : ∀ key, (page.sectionOf key).Reordered (other.sectionOf key)
  summary : page.summary = other.summary

theorem implementors_perm (same : Groups.Reordered (page.groups? key) (other.groups? key)) :
    (page.implementors key).Perm (other.implementors key) := by
  unfold implementors
  generalize page.groups? key = known, other.groups? key = known' at same ⊢
  cases same with
  | none => exact .refl _
  | some perm => exact Groups.entries_perm perm

theorem counts?_eq (same : Groups.Reordered (page.groups? key) (other.groups? key)) :
    page.counts? key = other.counts? key := by
  unfold counts?
  generalize page.groups? key = known, other.groups? key = known' at same ⊢
  cases same with
  | none => rfl
  | some perm =>
    rw [Option.map_some, Option.map_some, Groups.namespaceCount_eq_of_perm perm,
      Groups.entryCount_eq_of_perm perm]

theorem list_eq (same : Groups.Reordered (page.groups? key) (other.groups? key))
    (name : Namespace) :
    (page.groups? key).bind (fun groups => groups.get? name) =
      (other.groups? key).bind fun groups => groups.get? name := by
  generalize page.groups? key = known, other.groups? key = known' at same ⊢
  cases same with
  | none => rfl
  | some perm => exact Groups.get?_eq_of_perm perm name

/-- No namespace of a trait occurs in two of the payloads. -/
def EachOnce (payloads : List Payload) : Prop :=
  payloads.Pairwise fun a b =>
    a.traitKey = b.traitKey → ∀ name ∈ a.groups.names, name ∉ b.groups.names

instance (payloads : List Payload) : Decidable (EachOnce payloads) :=
  inferInstanceAs (Decidable (payloads.Pairwise _))

theorem EachOnce.of_perm (each : EachOnce payloads) (perm : payloads.Perm permuted) :
    EachOnce permuted := by
  refine (perm.pairwise_iff ?_).mp each
  intro a b apart same name here there
  exact apart same.symm name there here

theorem EachOnce.payloadsOf (each : EachOnce payloads) (key : TraitKey) :
    (payloadsOf key (payloads.map .accept)).Pairwise fun a b =>
      ∀ name ∈ a.groups.names, name ∉ b.groups.names := by
  rw [payloadsOf_accepts]
  refine (each.filter _).imp_of_mem ?_
  intro a b first second apart
  have own : a.traitKey = key := by simpa using (List.mem_filter.mp first).2
  have own' : b.traitKey = key := by simpa using (List.mem_filter.mp second).2
  exact apart (own.trans own'.symm)

theorem reordered_after (options : RenderOptions) (each : EachOnce payloads)
    (perm : payloads.Perm permuted) (key : TraitKey) :
    Groups.Reordered ((after options (payloads.map .accept)).groups? key)
      ((after options (permuted.map .accept)).groups? key) := by
  have own : (payloadsOf key (payloads.map .accept)).Perm (payloadsOf key (permuted.map .accept)) := by
    rw [payloadsOf_accepts, payloadsOf_accepts]
    exact perm.filter _
  rw [groups?_after, groups?_after]
  by_cases none : payloadsOf key (payloads.map .accept) = []
  · rw [none] at own
    rw [if_pos none, if_pos own.symm.eq_nil]
    exact .none
  · have some : payloadsOf key (permuted.map .accept) ≠ [] := by
      intro empty
      rw [empty] at own
      exact none own.eq_nil
    rw [if_neg none, if_neg some]
    apply Option.Rel.some
    rw [Groups.rows_mergeAll_of_apart (each.payloadsOf key),
      Groups.rows_mergeAll_of_apart ((each.of_perm perm).payloadsOf key)]
    exact own.flatMap_right _

/-- Payloads of different traits can change places: each trait sees its own payloads in the order they
had. -/
theorem payloadsOf_swap {first second : Payload} (apart : first.traitKey ≠ second.traitKey)
    (before rest : List Payload) (key : TraitKey) :
    payloadsOf key ((before ++ first :: second :: rest).map .accept) =
      payloadsOf key ((before ++ second :: first :: rest).map .accept) := by
  rw [payloadsOf_accepts, payloadsOf_accepts, List.filter_append, List.filter_append]
  congr 1
  by_cases own : first.traitKey = key
  · have other : second.traitKey ≠ key := fun same => apart (own.trans same.symm)
    simp [own, other]
  · simp [List.filter_cons, own]

/-- The order of loading affects nothing but the order of groups. Where no namespace of a trait occurs
in two payloads, pages that take the payloads in different orders have the same list under every
namespace, the same entries up to their order, sections in the same state and with the same groups up
to their order, and the same overview. Without that condition, two neighbours of different traits that
change places leave the groups of every trait as they are, in the same order. -/
theorem load_order_only_groups (options : RenderOptions) :
    (∀ payloads permuted : List Payload, EachOnce payloads → payloads.Perm permuted →
      SameUpToOrder (after options (payloads.map .accept)) (after options (permuted.map .accept))) ∧
    ∀ (before rest : List Payload) (first second : Payload), first.traitKey ≠ second.traitKey →
      ∀ key, (after options ((before ++ first :: second :: rest).map .accept)).groups? key =
        (after options ((before ++ second :: first :: rest).map .accept)).groups? key := by
  constructor
  · intro payloads permuted each perm
    have same := reordered_after options each perm
    refine ⟨fun key name => list_eq (same key) name, fun key => implementors_perm (same key),
      fun key => Section.reordered_ofGroups? (same key), ?_⟩
    apply summary_eq_of_counts (nodup_traits_after options _) (nodup_traits_after options _)
    intro key
    exact counts?_eq (same key)
  · intro before rest first second apart key
    rw [groups?_after, groups?_after, payloadsOf_swap apart]

def cloning : Payload :=
  .ofGroups ⟨"Clone"⟩ [(⟨"alpha"⟩, [{ markup := "impl A" }]), (⟨"beta"⟩, [])]

def debugging : Payload := .ofGroups ⟨"Debug"⟩ [(⟨"alpha"⟩, [{ markup := "impl D" }])]

/-- One namespace under two traits, a trait with two payloads, and one with a payload that brings
nothing. -/
def arrivals : List Payload :=
  [cloning, debugging, .ofGroups ⟨"Clone"⟩ [(⟨"gamma"⟩, [{ markup := "impl C" }])],
   .ofGroups ⟨"Send"⟩ []]

/-- The entries do come in another order. The neighbours that change places stand between payloads
that bring their namespaces as well. -/
theorem load_order_only_groups_arrivals :
    EachOnce arrivals ∧ arrivals.Perm arrivals.reverse ∧
    (after {} (arrivals.map .accept)).implementors ⟨"Clone"⟩ ≠
      (after {} (arrivals.reverse.map .accept)).implementors ⟨"Clone"⟩ ∧
    SameUpToOrder (after {} (arrivals.map .accept)) (after {} (arrivals.reverse.map .accept)) ∧
    cloning.traitKey ≠ debugging.traitKey ∧
    ∀ key, (after {} ((arrivals ++ cloning :: debugging :: arrivals).map .accept)).groups? key =
      (after {} ((arrivals ++ debugging :: cloning :: arrivals).map .accept)).groups? key :=
  have each : EachOnce arrivals := by decide
  have turned : arrivals.Perm arrivals.reverse := (List.reverse_perm arrivals).symm
  have apart : cloning.traitKey ≠ debugging.traitKey := by decide
  ⟨each, turned, by decide, (load_order_only_groups {}).1 arrivals arrivals.reverse each turned,
    apart, (load_order_only_groups {}).2 arrivals arrivals cloning debugging apart⟩

end Page

end ImplementorIndex
