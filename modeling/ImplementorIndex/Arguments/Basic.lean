import ImplementorIndex.Path

/-!
# Requests

What can be asked of the program, and the options that say so. Options that take a value are
settings, the others are switches. Some are known only before the word that says what to do, some
only behind it, and the settings for files stand on both sides.
-/

namespace ImplementorIndex.Arguments

inductive Verb where
  /-- render the section of a trait -/
  | render
  /-- check every fragment -/
  | check
  /-- list the traits -/
  | list
deriving DecidableEq

/-- What to do, in full. -/
inductive Task where
  | render (key : TraitKey) (attachAfter : Option Nat) (skip : Option Namespace)
  | check
  | list
deriving DecidableEq

structure Request where
  config : Option Path
  root : Option Path
  verbose : Bool
  task : Task
deriving DecidableEq

/-- Why there is nothing to do: help or the version was asked for, or the arguments make no sense. -/
inductive Refusal where
  | help
  | version
  | usage
deriving DecidableEq

inductive Setting where
  | config
  | root
  | attachAfter
  | skip
deriving DecidableEq

inductive Switch where
  | verbose
  | help
  | version
deriving DecidableEq

inductive Flag where
  | setting (setting : Setting)
  | switch (switch : Switch)
deriving DecidableEq

/-- Where an argument stands: before the verb, or behind it. -/
inductive Scope where
  | outer
  | inner (verb : Verb)
deriving DecidableEq

def Verb.ofWord? : String → Option Verb
  | "show" => some .render
  | "check" => some .check
  | "traits" => some .list
  | _ => none

namespace Scope

/-- The option that is known by a long name. Names are not abbreviated. -/
def long? : Scope → String → Option Flag
  | _, "config" => some (.setting .config)
  | _, "root" => some (.setting .root)
  | _, "verbose" => some (.switch .verbose)
  | _, "help" => some (.switch .help)
  | outer, "version" => some (.switch .version)
  | inner .render, "attach-after" => some (.setting .attachAfter)
  | inner .render, "skip-namespace" => some (.setting .skip)
  | _, _ => none

def short? : Scope → Char → Option Flag
  | _, 'c' => some (.setting .config)
  | _, 'r' => some (.setting .root)
  | _, 'v' => some (.switch .verbose)
  | _, 'h' => some (.switch .help)
  | outer, 'V' => some (.switch .version)
  | _, _ => none

end Scope

/-- What has been given on one side of the verb. -/
structure Given where
  config : Option Path := none
  root : Option Path := none
  verbose : Bool := false
  attachAfter : Option Nat := none
  skip : Option Namespace := none
  key : Option TraitKey := none
deriving DecidableEq

/-- The numbers that can be given stay below this one. -/
def countLimit : Nat := 18446744073709551616

def dropPlus : List Char → List Char
  | '+' :: rest => rest
  | text => text

def valueOf (digits : List Char) : Nat :=
  digits.foldl (fun value c => 10 * value + (c.toNat - '0'.toNat)) 0

/-- Reads a number: decimal digits, with a plus sign in front or without. -/
def countOf? (text : String) : Option Nat :=
  let digits := dropPlus text.toList
  if digits ≠ [] ∧ digits.all Char.isDigit ∧ valueOf digits < countLimit then
    some (valueOf digits)
  else none

/-- Reads a path, which may not be empty. -/
def pathOf? (text : String) : Option Path := if text = "" then none else some ⟨text⟩

def orUsage {α : Type} : Option α → Except Refusal α
  | some value => .ok value
  | none => .error .usage

namespace Given

/-- Gives a value to a setting, which must have none yet. -/
def set (given : Given) (text : String) : Setting → Except Refusal Given
  | .config => do
    let path ← orUsage (pathOf? text)
    if given.config.isSome then .error .usage else .ok { given with config := some path }
  | .root => do
    let path ← orUsage (pathOf? text)
    if given.root.isSome then .error .usage else .ok { given with root := some path }
  | .attachAfter => do
    let count ← orUsage (countOf? text)
    if given.attachAfter.isSome then .error .usage
    else .ok { given with attachAfter := some count }
  | .skip =>
    if given.skip.isSome then .error .usage else .ok { given with skip := some ⟨text⟩ }

/-- Turns a switch. Help and the version end the reading; the other one may be turned once. -/
def turn (given : Given) : Switch → Except Refusal Given
  | .verbose => if given.verbose then .error .usage else .ok { given with verbose := true }
  | .help => .error .help
  | .version => .error .version

def task (given : Given) : Verb → Except Refusal Task
  | .render => do
    let key ← orUsage given.key
    .ok (.render key given.attachAfter given.skip)
  | .check => .ok .check
  | .list => .ok .list

/-- Joins what was given before the verb and behind it. What stands later wins. -/
def request (before behind : Given) (task : Task) : Request :=
  { config := behind.config.or before.config
    root := behind.root.or before.root
    verbose := before.verbose || behind.verbose
    task := task }

end Given

end ImplementorIndex.Arguments
