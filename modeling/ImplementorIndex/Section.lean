import ImplementorIndex.Groups

/-!
# The implementors section of a trait page

What a page shows for one trait, and the text of that section. Markup, labels and the texts of the
options are copied as they are; whoever supplies them answers for their safety.
-/

namespace ImplementorIndex

/-- The display state of one trait. -/
inductive Section where
  /-- No payload for the trait has arrived. -/
  | notLoaded
  /-- Payloads arrived and hold no entry. -/
  | empty
  /-- The groups of the trait, those without entries included. -/
  | populated (groups : List (Namespace × List Entry))
deriving DecidableEq

/-- The wording of a section, and the namespace that is left out of its list. -/
structure RenderOptions where
  heading : String := "Implementors"
  emptyText : String := "No implementors."
  notLoadedText : String := "Implementors not loaded."
  skip : Option Namespace := none
deriving DecidableEq, Inhabited

namespace Section

def groups : Section → List (Namespace × List Entry)
  | notLoaded => []
  | empty => []
  | populated groups => groups

def entries (shown : Section) : List Entry := shown.groups.flatMap Prod.snd

def isLoaded : Section → Bool
  | notLoaded => false
  | empty => true
  | populated _ => true

/-- The section of a trait whose groups are known, if it is known at all. -/
def ofGroups? : Option Groups → Section
  | none => notLoaded
  | some groups => if groups.entryCount = 0 then empty else populated groups.rows

/-- The entries that stay once a namespace is left out. -/
def visibleEntries (groups : List (Namespace × List Entry)) (skip : Option Namespace) :
    List Entry :=
  (groups.filter fun group => skip ≠ some group.1).flatMap Prod.snd

def headingLine (options : RenderOptions) : String :=
  "<h2 id=\"implementors\" class=\"small-section-header\">" ++ options.heading ++ "</h2>\n"

def item (entry : Entry) : String :=
  let label := match entry.label with
    | none => ""
    | some label => "<span class=\"out-of-band\">" ++ label ++ "</span>"
  "<li><code>" ++ entry.markup ++ "</code>" ++ label ++ "</li>\n"

/-- The body for a loaded trait: a list, or a paragraph when nothing is left to list. -/
def loadedBody (visible : List Entry) (options : RenderOptions) : String :=
  if visible.isEmpty then "<p class=\"implementors-empty\">" ++ options.emptyText ++ "</p>"
  else
    "<ul class=\"item-list\" id=\"implementors-list\">\n" ++ String.join (visible.map item) ++ "</ul>"

def render (shown : Section) (options : RenderOptions) : String :=
  headingLine options ++
    match shown with
    | notLoaded => "<p class=\"implementors-not-loaded\">" ++ options.notLoadedText ++ "</p>"
    | empty => loadedBody [] options
    | populated groups => loadedBody (visibleEntries groups options.skip) options

end Section

end ImplementorIndex
