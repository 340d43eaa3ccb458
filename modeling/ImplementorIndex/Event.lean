import ImplementorIndex.Payload

/-!
# Events

What the library notes while it works. An event is a fact with its data; its level, its text and
its fields for a log are derived from it in one place. A computation that notes events is `Logged`.
-/

namespace ImplementorIndex

inductive Level where
  | trace
  | debug
  | info
  | warn
  | error
deriving DecidableEq

/-- A fact worth noting. -/
inductive Event where
  /-- A payload was put into the buffer of a registry that awaits its consumer. -/
  | buffered (registry : String) (traitKey : TraitKey) (namespaces position : Nat)
  /-- A consumer took a payload and returned. -/
  | delivered (registry : String) (traitKey : TraitKey)
  /-- A consumer broke off while it took a payload. -/
  | consumerPanicked (registry : String) (traitKey : TraitKey) (message : String)
  /-- A consumer was attached and is about to receive what was buffered. -/
  | consumerAttached (registry : String) (flushed : Nat)
  /-- The attached consumer was offered again. -/
  | consumerKept (registry : String)
  /-- Another consumer was offered to an attached registry. -/
  | consumerRejected (registry : String)
  /-- A registry was given up while payloads were still waiting for a consumer. -/
  | registryAbandoned (registry : String) (pending : Nat)
  /-- A page took the groups of a payload. -/
  | pageMerged (traitKey : TraitKey) (added replaced entries : Nat)
  /-- A page published a rendering. -/
  | pageRendered (revision : Nat)
  /-- A fragment handed to a registry could not be read. -/
  | fragmentRejected (registry : String) (traitKey : TraitKey) (reason : String)
  /-- A directory below the root of a fragment tree could not be listed. -/
  | directorySkipped (reason : String)
  /-- A fragment tree was searched. -/
  | treeScanned (root : String) (fragments : Nat)
  /-- A fragment file could not be read. -/
  | fileRejected (path reason : String)
  /-- A fragment tree holds no fragment. -/
  | treeEmpty (root : String)
  /-- A replay attached its page. -/
  | pageAttached (flushed : Nat)
  /-- A replay handed over all its fragments. -/
  | replayed (registered buffered delivered : Nat)
  /-- There is no configuration file. -/
  | configAbsent
  /-- A configuration file was read. -/
  | configLoaded (path : String)
deriving DecidableEq

namespace Event

def level : Event → Level
  | buffered .. | delivered .. | pageRendered .. => .trace
  | consumerAttached .. | consumerKept .. | registryAbandoned .. | pageMerged .. | treeScanned ..
  | pageAttached .. | configAbsent | configLoaded .. => .debug
  | replayed .. => .info
  | consumerRejected .. | fragmentRejected .. | directorySkipped .. | fileRejected ..
  | treeEmpty .. => .warn
  | consumerPanicked .. => .error

def text : Event → String
  | buffered .. => "implementors.buffered"
  | delivered .. => "implementors.delivered"
  | consumerPanicked .. => "implementor consumer panicked"
  | consumerAttached .. => "implementor consumer attached"
  | consumerKept .. => "implementor consumer already installed"
  | consumerRejected .. => "rejected second implementor consumer; keeping the first"
  | registryAbandoned .. => "registry dropped before a consumer was installed"
  | pageMerged .. => "page.merged"
  | pageRendered .. => "page.rendered"
  | fragmentRejected .. => "rejected implementor fragment"
  | directorySkipped .. => "skipping unreadable fragment tree entry"
  | treeScanned .. => "fragment tree scanned"
  | fileRejected .. => "rejected implementor fragment"
  | treeEmpty .. => "no trait fragments found"
  | pageAttached .. => "page attached"
  | replayed .. => "fragments replayed"
  | configAbsent => "no config file, using defaults"
  | configLoaded .. => "config loaded"

def fields : Event → List (String × String)
  | buffered registry key namespaces position =>
    [("registry", registry), ("trait_key", key.text), ("namespaces", toString namespaces),
     ("position", toString position)]
  | delivered registry key => [("registry", registry), ("trait_key", key.text)]
  | consumerPanicked registry key message =>
    [("registry", registry), ("trait_key", key.text), ("message", message)]
  | consumerAttached registry flushed => [("registry", registry), ("flushed", toString flushed)]
  | consumerKept registry => [("registry", registry)]
  | consumerRejected registry => [("registry", registry)]
  | registryAbandoned registry pending =>
    [("registry", registry), ("pending", toString pending)]
  | pageMerged key added replaced entries =>
    [("trait_key", key.text), ("added", toString added), ("replaced", toString replaced),
     ("entries", toString entries)]
  | pageRendered revision => [("revision", toString revision)]
  | fragmentRejected registry key reason =>
    [("registry", registry), ("trait_key", key.text), ("error", reason)]
  | directorySkipped reason => [("error", reason)]
  | treeScanned root fragments => [("root", root), ("fragments", toString fragments)]
  | fileRejected path reason => [("path", path), ("error", reason)]
  | treeEmpty root => [("root", root)]
  | pageAttached flushed => [("flushed", toString flushed)]
  | replayed arrived waited handed =>
    [("registered", toString arrived), ("buffered", toString waited),
     ("delivered", toString handed)]
  | configAbsent => []
  | configLoaded path => [("path", path)]

end Event

/-- A value together with the events noted on the way to it, in order. -/
structure Logged (α : Type) where
  value : α
  events : List Event := []

namespace Logged

variable {α β : Type}

def note (event : Event) : Logged Unit := ⟨(), [event]⟩

protected def bind (first : Logged α) (next : α → Logged β) : Logged β :=
  let second := next first.value
  ⟨second.value, first.events ++ second.events⟩

instance : Monad Logged where
  pure value := ⟨value, []⟩
  bind := Logged.bind

@[simp] theorem value_pure (value : α) : (pure value : Logged α).value = value := rfl

@[simp] theorem events_pure (value : α) : (pure value : Logged α).events = [] := rfl

@[simp] theorem value_bind (first : Logged α) (next : α → Logged β) :
    (first >>= next).value = (next first.value).value := rfl

@[simp] theorem events_bind (first : Logged α) (next : α → Logged β) :
    (first >>= next).events = first.events ++ (next first.value).events := rfl

end Logged

end ImplementorIndex
