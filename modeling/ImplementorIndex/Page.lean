import ImplementorIndex.Event
import ImplementorIndex.Merge
import ImplementorIndex.Section

/-!
# Pages

A page takes payloads, keeps the merged groups of every trait it has heard of, and publishes the
rendering of the one trait on display. The rendering is made anew whenever the trait on display
changes or a payload touches it, and at no other time.
-/

namespace ImplementorIndex

/-- A published section: the trait it shows, its text, and how often the page has rendered. -/
structure Rendering where
  traitKey : Option TraitKey := none
  html : String := ""
  revision : Nat := 0
deriving DecidableEq, Inhabited

structure TraitSummary where
  traitKey : TraitKey
  namespaces : Nat
  entries : Nat
deriving DecidableEq

structure Page where
  options : RenderOptions := {}
  displayed : Option TraitKey := none
  traits : List (TraitKey × Groups) := []
  rendered : Rendering := {}
deriving DecidableEq, Inhabited

namespace Page

def groups? (page : Page) (key : TraitKey) : Option Groups := Rows.find? key page.traits

/-- The merged entries of a trait; none for a trait that has not arrived. -/
def implementors (page : Page) (key : TraitKey) : List Entry :=
  match page.groups? key with
  | none => []
  | some groups => groups.entries

def sectionOf (page : Page) (key : TraitKey) : Section := Section.ofGroups? (page.groups? key)

/-- The known traits in ascending order of their keys. -/
def summary (page : Page) : List TraitSummary :=
  (page.traits.map fun row => (⟨row.1, row.2.namespaceCount, row.2.entryCount⟩ : TraitSummary)).mergeSort
    fun a b => (compare a.traitKey b.traitKey).isLE

/-- Renders the section of a trait and publishes it under the next revision. -/
def publish (page : Page) (key : TraitKey) : Logged Page :=
  let revision := page.rendered.revision + 1
  let html := (page.sectionOf key).render page.options
  ⟨{ page with rendered := ⟨some key, html, revision⟩ }, [.pageRendered revision]⟩

def display (page : Page) (key : TraitKey) : Logged Page :=
  ({ page with displayed := some key } : Page).publish key

/-- Folds a payload into the groups of its trait, without publishing. -/
def mergePayload (page : Page) (payload : Payload) : Groups × MergeOutcome :=
  ((page.groups? payload.traitKey).getD .empty).merge payload.groups

/-- Takes a payload: merges it and, if its trait is on display, publishes the section anew. -/
def accept (page : Page) (payload : Payload) : Logged Page := do
  let (groups, outcome) := page.mergePayload payload
  let merged := { page with traits := Rows.put payload.traitKey groups page.traits }
  Logged.note (.pageMerged payload.traitKey outcome.added outcome.replaced groups.entryCount)
  if page.displayed = some payload.traitKey then merged.publish payload.traitKey else pure merged

def inspect (page : Page) : String :=
  Text.inspectRecord "Page"
    [("displayed", Text.inspectOption (page.displayed.map TraitKey.inspect)),
     ("traits", toString page.traits.length),
     ("revision", toString page.rendered.revision)]

end Page

end ImplementorIndex
