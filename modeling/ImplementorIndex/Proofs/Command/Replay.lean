import ImplementorIndex.Command
import ImplementorIndex.Proofs.Page.Merging
import ImplementorIndex.Proofs.Threads.Transition

/-!
# Where the page is attached does not show

A replay registers payloads and attaches its page somewhere in between. Of the registry only two
situations occur: it holds what was registered and awaits the page, or its queue is idle and the page
has taken everything. In either of them one more payload takes the same way to the page in the end,
so the page takes all payloads in order wherever it was attached, and what it prints is the section
that these payloads make.
-/

namespace ImplementorIndex.Command

open Files (Node)
open Fragment (LoadReport)

/-- The page after it has taken payloads in order. -/
def takeAll (page : Page) (payloads : List Payload) : Page :=
  payloads.foldl (fun page payload => (page.accept payload).value) page

/-- The registry holds payloads back and the page has not seen them. -/
structure Awaits (replay : Replay) (pending : List Payload) (page : Page) : Prop where
  phase : replay.registry.phase = .awaiting pending
  world : replay.world = page

/-- The page is attached and nobody has anything to hand over. -/
structure Idles (replay : Replay) (page : Page) : Prop where
  phase : ∃ enqueued completed, replay.registry.phase = .attached ⟨(), [], none, enqueued, completed⟩
  world : replay.world = page

variable {replay : Replay} {pending payloads : List Payload} {payload : Payload} {page : Page}

theorem deliver_pageAccepts (payload : Payload) (replay : Replay) :
    ∃ log, Scene.deliver pageAccepts () () payload replay =
      (⟨replay.registry, (replay.world.accept payload).value, log⟩, .returned) :=
  ⟨_, rfl⟩

/-- Draining hands the whole queue to the page, in order. -/
theorem idles_drain {delivery : Delivery Unit Unit} {most : Nat} (last : Option Ending)
    (phase : replay.registry.phase = .attached delivery) (room : delivery.inflight.length < most) :
    Idles (Scene.drain pageAccepts () () most last replay)
      (takeAll replay.world delivery.inflight) := by
  -- The queue gets shorter by one payload while the room does, so the room never runs out.
  induction queue : delivery.inflight generalizing replay delivery most last with
  | nil =>
    obtain ⟨most, rfl⟩ : ∃ fewer, most = fewer + 1 := ⟨most - 1, by omega⟩
    simp only [Scene.drain, Registry.advance_attached phase, queue]
    exact ⟨⟨_, _, rfl⟩, rfl⟩
  | cons payload rest ih =>
    rw [queue, List.length_cons] at room
    obtain ⟨most, rfl⟩ : ∃ fewer, most = fewer + 1 := ⟨most - 1, by omega⟩
    simp only [Scene.drain, Registry.advance_attached phase, queue]
    generalize after : { replay.registry with
      phase := .attached { delivery with
        inflight := rest, completed := delivery.completed + Counters.ends last }
      counters := replay.registry.counters.settle last } = registry
    obtain ⟨log, delivered⟩ := deliver_pageAccepts payload { replay with registry := registry }
    rw [delivered]
    have attached : registry.phase = .attached { delivery with
        inflight := rest, completed := delivery.completed + Counters.ends last } := by
      rw [← after]
    exact @ih ⟨registry, (replay.world.accept payload).value, log⟩ _ most (some .returned) attached
      (Nat.lt_of_succ_lt_succ room) rfl

theorem idles_pump {delivery : Delivery Unit Unit}
    (phase : replay.registry.phase = .attached delivery) :
    Idles (replay.pump pageAccepts 0 ()) (takeAll replay.world delivery.inflight) := by
  simp only [Scene.pump, phase]
  exact idles_drain none phase (Nat.lt_succ_self _)

theorem Awaits.register (h : Awaits replay pending page) (payload : Payload) :
    Awaits (replay.register pageAccepts 0 () payload).1 (pending ++ [payload]) page := by
  simp only [Scene.register, Registry.receive, h.phase]
  exact ⟨rfl, h.world⟩

/-- A registry that holds payloads back does not turn the page away: attaching hands them over. -/
theorem Awaits.attach (h : Awaits replay pending page) :
    ∃ done, attach replay = (done, .ok ()) ∧ Idles done (takeAll page pending) := by
  have idle := @idles_pump
    ({ replay with registry := (replay.registry.offer () ()).1 }.note
      (.consumerAttached replay.registry.label pending.length))
    ⟨(), pending, some (), pending.length, 0⟩ (by simp [Scene.note, Registry.offer, h.phase])
  rw [← h.world]
  simp only [Command.attach, Scene.install, Registry.offer, h.phase] at idle ⊢
  exact ⟨_, rfl, idle.phase, idle.world⟩

theorem Idles.register (h : Idles replay page) (payload : Payload) :
    Idles (replay.register pageAccepts 0 () payload).1 (page.accept payload).value := by
  obtain ⟨enqueued, completed, phase⟩ := h.phase
  have idle := @idles_pump { replay with registry := (replay.registry.receive () payload).1 }
    ⟨(), [payload], some (), enqueued + 1, completed⟩ (by simp [Registry.receive, phase])
  rw [← h.world]
  simp only [Scene.register, Registry.receive, phase] at idle ⊢
  exact idle

theorem Awaits.registerAll (h : Awaits replay pending page) (payloads : List Payload) :
    Awaits (registerAll payloads replay) (pending ++ payloads) page := by
  induction payloads generalizing replay pending with
  | nil =>
    rw [List.append_nil]
    exact h
  | cons payload payloads ih =>
    have later := ih (h.register payload)
    rw [List.append_assoc] at later
    exact later

theorem Idles.registerAll (h : Idles replay page) (payloads : List Payload) :
    Idles (registerAll payloads replay) (takeAll page payloads) := by
  induction payloads generalizing replay page with
  | nil => exact h
  | cons payload payloads ih => exact ih (h.register payload)

/-- Wherever the page is attached, it is not turned away, and it takes all payloads in order. -/
theorem replay_ok (page : Logged Page) (payloads : List Payload) (attachAfter : Option Nat) :
    ∃ done, Command.replay page payloads attachAfter = (done, .ok ()) ∧
      done.world = takeAll page.value payloads := by
  generalize cut : attachAfter.getD payloads.length = before
  have fresh : Awaits (start page) [] page.value := ⟨rfl, rfl⟩
  obtain ⟨attached, accepted, idle⟩ := (fresh.registerAll (payloads.take before)).attach
  refine ⟨registerAll (payloads.drop before) attached, ?_, ?_⟩
  · simp only [Command.replay, cut, accepted]
  · rw [(idle.registerAll (payloads.drop before)).world, List.nil_append, takeAll, takeAll, takeAll,
      ← List.foldl_append, List.take_append_drop]

def ownPayloads (key : TraitKey) (payloads : List Payload) : List Payload :=
  payloads.filter fun payload => payload.traitKey = key

/-- The section of a trait that payloads of any traits make, merged in order. -/
def sectionFrom (key : TraitKey) (payloads : List Payload) : Section :=
  let own := ownPayloads key payloads
  if own = [] then .notLoaded else Section.ofGroups? (some (Groups.mergeAll own))

def displayThenAccept (key : TraitKey) (payloads : List Payload) : List Page.Operation :=
  .display key :: payloads.map .accept

theorem after_displayThenAccept (options : RenderOptions) (key : TraitKey)
    (payloads : List Payload) :
    Page.after options (displayThenAccept key payloads) =
      takeAll (({ options := options } : Page).display key).value payloads := by
  simp only [Page.after, displayThenAccept, List.foldl_cons, List.foldl_map]
  rfl

theorem lastDisplayed_displayThenAccept (key : TraitKey) (payloads : List Payload) :
    Page.lastDisplayed (displayThenAccept key payloads) = some key :=
  Page.lastDisplayed_append_accepts [.display key] payloads

theorem sectionOf_displayThenAccept (options : RenderOptions) (key : TraitKey)
    (payloads : List Payload) :
    (Page.after options (displayThenAccept key payloads)).sectionOf key =
      sectionFrom key payloads := by
  have own : Page.payloadsOf key (displayThenAccept key payloads) = ownPayloads key payloads :=
    Page.payloadsOf_accepts key payloads
  rw [Page.sectionOf, Page.groups?_after, own, sectionFrom]
  split
  · rfl
  · rfl

theorem html_takeAll (options : RenderOptions) (key : TraitKey) (payloads : List Payload) :
    (takeAll (({ options := options } : Page).display key).value payloads).rendered.html =
      (sectionFrom key payloads).render options := by
  have html := (Page.rendered_after options (displayThenAccept key payloads)).2
  simp only [lastDisplayed_displayThenAccept, sectionOf_displayThenAccept] at html
  rw [← after_displayThenAccept, html]

theorem value_renderSection (report : LoadReport) (key : TraitKey) (attachAfter : Option Nat)
    (options : RenderOptions) :
    (renderSection report key attachAfter options).value =
      .ok ⟨(sectionFrom key report.payloads).render options ++ "\n", report.isClean⟩ := by
  obtain ⟨done, replayed, world⟩ :=
    replay_ok (({ options := options } : Page).display key) report.payloads attachAfter
  simp only [renderSection, replayed, world, html_takeAll]

/-- Whenever the tree can be loaded, what is shown of a trait is the section that the payloads of the
tree make, whatever the number of payloads after which the page is attached, and the tree is in order
exactly when no fragment failed. -/
theorem value_showTrait (top : Node) (root : Path) (key : TraitKey) (attachAfter : Option Nat)
    (options : RenderOptions) :
    (showTrait top root key attachAfter options).value =
      (loadTree top root).value.map fun report =>
        { output := (sectionFrom key report.payloads).render options ++ "\n"
          ok := decide (report.failures = []) } := by
  simp only [showTrait, withTree, Logged.value_bind]
  cases (loadTree top root).value with
  | error failure => rfl
  | ok report =>
    have clean : report.isClean = decide (report.failures = []) := by
      rw [Fragment.LoadReport.isClean]
      cases report.failures <;> rfl
    simp only [value_renderSection, clean, Except.map]

end ImplementorIndex.Command
