import ImplementorIndex.Text.Inspect

/-!
# Names of traits and namespaces

A trait key is the full path of a trait, its segments separated by a double colon. A namespace names
the compiled unit that contributed a group of implementors. Both are plain texts compared character
by character; two distinct types keep them apart.
-/

namespace ImplementorIndex

structure TraitKey where
  text : String
deriving DecidableEq, Inhabited

/-- The compiled unit that contributed a group of entries. -/
structure Namespace where
  text : String
deriving DecidableEq, Inhabited

def consFirst (c : Char) : List (List Char) → List (List Char)
  | [] => [[c]]
  | piece :: pieces => (c :: piece) :: pieces

/-- Cuts a text at each double colon, from the left and without overlap. -/
def splitDoubleColon : List Char → List (List Char)
  | [] => [[]]
  | ':' :: ':' :: rest => [] :: splitDoubleColon rest
  | c :: rest => consFirst c (splitDoubleColon rest)

namespace TraitKey

def segments (key : TraitKey) : List String :=
  (splitDoubleColon key.text.toList).map String.ofList

def inspect (key : TraitKey) : String := Text.inspectVariant "TraitKey" (Text.quoted key.text)

/-- Trait keys are ordered by their code points, which is the order of their encoded bytes. -/
instance : Ord TraitKey := ⟨fun a b => compare a.text b.text⟩

end TraitKey

def Namespace.inspect (name : Namespace) : String :=
  Text.inspectVariant "Namespace" (Text.quoted name.text)

end ImplementorIndex
