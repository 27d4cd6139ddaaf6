import Ember.Foundation.Calls
import Mathlib.Data.List.DropRight
import Mathlib.Tactic.IntervalCases

/-!
# A project's browser and its network exit

The manager saves which exit (egress) the user chose; the instance keeps the choice, and the running
Chrome was started with one. Saving, choosing, stopping and starting are separate steps, and a lock
is held only while Chrome is started or taken away, so what the three say can differ while calls are
in progress: `egress_agrees` is about when none is.

A call waits for the lock by taking a step that changes nothing; in which order waiting calls get it
is not fixed.
-/

namespace Ember.Server.Browser

open StepSystem

/-! ### The choice -/

/-- `Egress`: where a project's browser sends its traffic. -/
inductive Egress
  /-- The server's own network. -/
  | direct
  | proxy (url : String)
  /-- A registered computer. -/
  | computer (id : String)
  deriving DecidableEq, Repr

/-- `Egress::from_proxy`. -/
def Egress.fromProxy : Option String → Egress
  | none => .direct
  | some url => .proxy url

/-- `str::split_once`. -/
def splitOnce (sep : List Char) : List Char → Option (List Char × List Char)
  | [] => if sep = [] then some ([], []) else none
  | c :: cs =>
    if sep.isPrefixOf (c :: cs) then some ([], (c :: cs).drop sep.length)
    else (splitOnce sep cs).map fun p ↦ (c :: p.1, p.2)

/-- What comes after the last `:`, if there is one. -/
def afterColon (cs : List Char) : Option (List Char) :=
  if ':' ∈ cs then some (cs.rtakeWhile (· ≠ ':')) else none

/-- `parse::<u16>` succeeds. -/
def isPort (cs : List Char) : Bool :=
  let digits := if cs.head? = some '+' then cs.tail else cs
  digits ≠ [] ∧ digits.all Char.isDigit ∧
    digits.foldl (fun n c ↦ 10 * n + (c.toNat - '0'.toNat)) 0 < 2 ^ 16

/-- `chrome::check_proxy`: `scheme://host:port`, without credentials or a path. -/
def checkProxy (proxy : String) : Bool :=
  match splitOnce "://".toList proxy.toList with
  | none => false
  | some (scheme, rest) =>
    let hostport := rest.rdropWhile (· = '/')
    String.ofList scheme ∈ ["socks5", "socks4", "http", "https"] ∧ hostport ≠ [] ∧
      hostport.all (· ∉ ['/', '@', ' ', ',', ';']) ∧ (afterColon hostport).any isPort

/-- What a step finds out: what the resolver says of each computer, and whether a statement, a start
of Chrome or the removal of a directory succeeds. -/
structure Found where
  /-- `EgressResolver::proxy_for_computer`; `none` when it fails, also when there is no resolver. -/
  proxyForComputer : String → Option (Option String)
  ok : Bool

/-- `BrowserInstance::resolve_egress`: the proxy to start Chrome with. -/
def Found.resolveEgress (d : Found) (egress : Egress) : Option (Option String) :=
  let proxy :=
    match egress with
    | .direct => some none
    | .proxy url => some (some url)
    | .computer id => d.proxyForComputer id
  proxy.filter fun p ↦ p.all checkProxy

/-! ### The browser and its calls -/

/-- A Chrome: the choice it was started with, and what that was resolved to. -/
structure Chrome where
  egress : Egress
  proxy : Option String
  alive : Bool
  deriving DecidableEq

/-- The lock on the running Chrome. -/
inductive RunLock
  | free
  | held
  /-- A call holds it while this Chrome starts. -/
  | launching (chrome : Chrome)
  deriving DecidableEq

/-- A `set_egress` that saved its choice, by when it began and when it saved. -/
structure Save where
  egress : Egress
  began : ℕ
  saved : ℕ
  deriving DecidableEq

/-- What the manager and the instance keep for a project. -/
structure ProjectBrowser where
  /-- The row of the store, if there is a store. No row is the direct exit. -/
  store : Option (Option Egress)
  /-- The instance's choice. -/
  choice : Egress
  run : Option Chrome
  lock : RunLock
  /-- The proxy Chrome was last started with. -/
  proxy : Option String
  /-- The choice the instance was made with. Like the two fields after it, only statements speak of
  it. -/
  initial : Egress
  clock : ℕ
  /-- The `set_egress` calls that saved, the last one first. -/
  saves : List Save
  deriving DecidableEq

/-- What calls there are. -/
inductive Call
  /-- `BrowserManager::set_egress`. -/
  | setEgress (egress : Egress) (start : Bool)
  /-- `BrowserManager::open_with`. -/
  | «open» (egress : Option Egress)
  | clearData
  | ensureRunning
  /-- `BrowserInstance::switch_egress`, from elsewhere than `set_egress`. -/
  | switchEgress (egress : Egress)
  | stop
  deriving DecidableEq

/-- What a call does after Chrome has stopped. -/
inductive After
  | done
  | start
  /-- Remove the profile, and start Chrome again if it was running. -/
  | wipe (wasRunning : Bool)
  deriving DecidableEq

/-- What is left of a call. A switch that a `set_egress` made is marked `saved`. -/
inductive Todo
  | call (c : Call)
  | begun (egress : Egress) (start : Bool) (began : ℕ)
  /-- The choice is stored; is Chrome running? -/
  | saved (egress : Egress) (start : Bool)
  /-- It is not: the choice is only recorded. -/
  | recording (egress : Egress)
  | switching (egress : Egress) (saved : Bool)
  /-- `switch_egress` has resolved the choice. -/
  | checking (egress : Egress) (proxy : Option String) (saved : Bool)
  | changing (egress : Egress) (saved : Bool)
  | stopping (after : After)
  | ensuring
  /-- `ensure_running` has the lock, and no Chrome is running. -/
  | launching
  | launched
  | wiping (wasRunning : Bool)
  deriving DecidableEq

/-- A call that has stopped Chrome goes on. -/
def After.todo : After → Option Todo
  | .done => none
  | .start => some .ensuring
  | .wipe wasRunning => some (.wiping wasRunning)

/-- What happens besides the calls. -/
inductive Event
  /-- The running Chrome dies. -/
  | died
  deriving DecidableEq

namespace ProjectBrowser

/-- The browser of a project, when the instance is made. -/
def new (store : Option (Option Egress)) : ProjectBrowser where
  store := store
  choice := (store.bind id).getD .direct
  run := none
  lock := .free
  proxy := none
  initial := (store.bind id).getD .direct
  clock := 0
  saves := []

/-- The egress that was saved last. -/
def latest (b : ProjectBrowser) : Egress := (b.saves.head?.map Save.egress).getD b.initial

/-- `EgressStore::save`: the direct exit has no row. -/
def save (b : ProjectBrowser) (egress : Egress) (began : ℕ) : ProjectBrowser :=
  { b with
    store := b.store.map fun _ ↦ if egress = .direct then none else some egress
    saves := ⟨egress, began, b.clock⟩ :: b.saves }

/-- A `set_egress` begins. -/
def begin (b : ProjectBrowser) (egress : Egress) (start : Bool) : ProjectBrowser × Option Todo :=
  ({ b with clock := b.clock + 1 }, some (.begun egress start b.clock))

/-- One step of a call. -/
def step (b : ProjectBrowser) (todo : Todo) (d : Found) : ProjectBrowser × Option Todo :=
  match todo with
  | .call (.setEgress egress start) => b.begin egress start
  | .call (.open (some egress)) => b.begin egress true
  | .call (.open none) => (b, some .ensuring)
  | .call .ensureRunning => (b, some .ensuring)
  | .call (.switchEgress egress) => (b, some (.switching egress false))
  | .call .stop => (b, some (.stopping .done))
  | .call .clearData =>
    if b.lock = .free then (b, some (.stopping (.wipe b.run.isSome)))
    else (b, some (.call .clearData))
  | .begun egress start began =>
    if (d.resolveEgress egress).isNone then (b, none)
    else if b.store.isSome ∧ !d.ok then (b, none)
    else (b.save egress began, some (.saved egress start))
  | .saved egress start =>
    if start then (b, some (.switching egress true))
    else if b.lock ≠ .free then (b, some (.saved egress start))
    else if b.run.isSome then (b, some (.switching egress true))
    else (b, some (.recording egress))
  | .recording egress => ({ b with choice := egress }, none)
  | .switching egress saved =>
    -- The choice may be stored already when this fails.
    match d.resolveEgress egress with
    | none => (b, none)
    | some proxy => (b, some (.checking egress proxy saved))
  | .checking egress proxy saved =>
    if b.lock ≠ .free then (b, some (.checking egress proxy saved))
    else if b.run.isSome ∧ b.choice = egress ∧ b.proxy = proxy then (b, some .ensuring)
    else (b, some (.changing egress saved))
  | .changing egress _ => ({ b with choice := egress }, some (.stopping .start))
  | .stopping after =>
    if b.lock ≠ .free then (b, some (.stopping after))
    else ({ b with run := none }, after.todo)
  | .ensuring =>
    if b.lock ≠ .free then (b, some .ensuring)
    else if b.run.any Chrome.alive then (b, none)
    else ({ b with run := none, lock := .held }, some .launching)
  | .launching =>
    match d.resolveEgress b.choice with
    | none => ({ b with lock := .free }, none)
    | some proxy => ({ b with lock := .launching ⟨b.choice, proxy, true⟩ }, some .launched)
  | .launched =>
    match b.lock with
    | .launching chrome =>
      if d.ok then ({ b with run := some chrome, proxy := chrome.proxy, lock := .free }, none)
      else ({ b with lock := .free }, none)
    | _ => (b, none)
  | .wiping wasRunning =>
    if d.ok ∧ wasRunning then (b, some .ensuring) else (b, none)

/-- What happens besides the calls. -/
def happen (b : ProjectBrowser) : Event → ProjectBrowser
  | .died => { b with run := b.run.map fun chrome ↦ { chrome with alive := false } }

/-- The calls on one project's browser. -/
def program : Program ProjectBrowser Call Todo Found Event where
  enter := .call
  step := step
  env := happen

/-- This Chrome is running, or a call is starting it. -/
def Up (b : ProjectBrowser) (chrome : Chrome) : Prop :=
  b.run = some chrome ∨ b.lock = .launching chrome

end ProjectBrowser

open ProjectBrowser

/-- What a `set_egress` call has stored and has yet to make the instance's choice. -/
def Todo.choosing : Todo → Option Egress
  | .saved egress _ | .recording egress | .switching egress true | .checking egress _ true
  | .changing egress true => some egress
  | _ => none

/-- The call is about to stop Chrome. -/
def Todo.Stops (todo : Todo) : Prop := ∃ after, todo = .stopping after

/-- **What `set_egress` counts on.** It saves only while no other one has a saved choice to make the
instance's; what it has saved still resolves when it switches to it; a switch from elsewhere is to
the egress that was saved last; and a choice that is only recorded, because Chrome was not running,
finds no Chrome started with another since, or one that is about to be stopped. -/
def Fair (w : Calls ProjectBrowser Todo) : CallAct Call Found Event → Prop
  | .step i d =>
    match w.call i with
    | some (.begun egress _ _) => ¬ w.Another i fun q ↦ ∃ e ∈ q.choosing, e ≠ egress
    | some (.switching egress true) =>
      (d.resolveEgress egress).isSome ∨ w.shared.choice = egress
    | some (.changing egress false) => egress = w.shared.latest
    | some (.recording egress) =>
      (∀ chrome, w.shared.Up chrome → chrome.egress = egress) ∨ w.Another i Todo.Stops
    | _ => True
  | _ => True

variable {b b' : ProjectBrowser} {todo : Todo} {d : Found} {w : Calls ProjectBrowser Todo}

/-! ### What is stored -/

variable {e : Egress}

namespace ProjectBrowser

/-- The store has what was saved last, and no call that saved began after the last one saved. -/
structure Sound (b : ProjectBrowser) : Prop where
  store : ∀ row ∈ b.store, row.getD .direct = b.latest
  began : ∀ x ∈ b.saves, x.began < b.clock
  last : ∀ l ∈ b.saves.head?, ∀ x ∈ b.saves, x.began < l.saved

/-- What a call knows of the browser: the choice it has stored is the last one that was. -/
structure Knows (b : ProjectBrowser) (todo : Todo) : Prop where
  choosing : ∀ e ∈ todo.choosing, e = b.latest
  begun : ∀ e start t, todo = .begun e start t → t < b.clock

/-- Nothing was saved. -/
structure Later (b b' : ProjectBrowser) : Prop where
  store : b'.store = b.store
  initial : b'.initial = b.initial
  saves : b'.saves = b.saves
  clock : b.clock ≤ b'.clock

theorem Later.latest (h : Later b b') : b'.latest = b.latest := by
  unfold ProjectBrowser.latest
  rw [h.saves, h.initial]

theorem Later.sound (h : Later b b') (hb : b.Sound) : b'.Sound where
  store := by
    rw [h.store, h.latest]
    exact hb.store
  began x hx := (hb.began x (h.saves ▸ hx)).trans_le h.clock
  last := by
    rw [h.saves]
    exact hb.last

theorem Later.knows (h : Later b b') (hb : b.Knows todo) : b'.Knows todo where
  choosing e he := (hb.choosing e he).trans h.latest.symm
  begun e start t heq := (hb.begun e start t heq).trans_le h.clock

theorem latest_save (e : Egress) (t : ℕ) : (b.save e t).latest = e := rfl

theorem Sound.save (hb : b.Sound) {t : ℕ} (ht : t < b.clock) : (b.save e t).Sound where
  store row hrow := by
    obtain ⟨_, _, rfl⟩ := Option.map_eq_some_iff.1 hrow
    rw [latest_save]
    split
    case isTrue h => exact h.symm
    case isFalse => rfl
  began x hx := by
    rcases List.mem_cons.1 hx with rfl | hx
    · exact ht
    · exact hb.began x hx
  last l hl x hx := by
    obtain rfl : ⟨e, t, b.clock⟩ = l := Option.some.inj hl
    rcases List.mem_cons.1 hx with rfl | hx
    · exact ht
    · exact hb.began x hx

theorem sound_new (store : Option (Option Egress)) : (new store).Sound where
  store row hrow := by
    obtain rfl : store = some row := hrow
    rfl
  began _ h := absurd h List.not_mem_nil
  last _ h := by cases h

/-- A step that does not save leaves of the call what chooses nothing new. -/
structure Leaves (b : ProjectBrowser) (todo : Todo) (r : ProjectBrowser × Option Todo) : Prop where
  later : Later b r.1
  choosing : ∀ q ∈ r.2, ∀ e ∈ q.choosing, e ∈ todo.choosing
  begun : ∀ q ∈ r.2, ∀ e start t, q = .begun e start t → t < r.1.clock

theorem leaves_none (h : Later b b') : b.Leaves todo (b', none) :=
  ⟨h, (fun _ hq ↦ by cases hq), fun _ hq ↦ by cases hq⟩

theorem leaves_some {q : Todo} (h : Later b b')
    (hchoosing : q.choosing = none ∨ q.choosing = todo.choosing)
    (hbegun : ∀ e start t, q ≠ .begun e start t) : b.Leaves todo (b', some q) := by
  refine ⟨h, fun q' hq e he ↦ ?_, fun q' hq e start t heq ↦ ?_⟩
  · obtain rfl : q = q' := Option.some.inj hq
    rcases hchoosing with hnone | hsame
    · rw [hnone] at he
      cases he
    · exact hsame ▸ he
  · obtain rfl : q = q' := Option.some.inj hq
    exact absurd heq (hbegun e start t)

theorem later_refl (b : ProjectBrowser) : Later b b := ⟨rfl, rfl, rfl, le_rfl⟩

theorem leaves_begin (egress : Egress) (start : Bool) : b.Leaves todo (b.begin egress start) := by
  refine ⟨⟨rfl, rfl, rfl, Nat.le_succ _⟩, fun q hq e he ↦ ?_, fun q hq e start t heq ↦ ?_⟩
  · obtain rfl : Todo.begun egress start b.clock = q := Option.some.inj hq
    cases he
  · obtain rfl : Todo.begun egress _ b.clock = q := Option.some.inj hq
    cases heq
    exact Nat.lt_succ_self _

/-- A step of a call that does not hold a new choice to save. -/
theorem leaves_step (h : ∀ e start t, todo ≠ .begun e start t) : b.Leaves todo (b.step todo d) := by
  have hsame : ∀ {q : Todo}, (q.choosing = none ∨ q.choosing = todo.choosing) →
      (∀ e start t, q ≠ .begun e start t) → b.Leaves todo (b, some q) :=
    fun hq hb ↦ leaves_some (later_refl b) hq hb
  cases todo with simp only [step]
  | call c =>
    cases c with
    | setEgress egress start => exact leaves_begin egress start
    | «open» egress =>
      cases egress with
      | none => exact hsame (.inl rfl) nofun
      | some egress => exact leaves_begin egress true
    | clearData =>
      simp only [step]
      split <;> exact hsame (.inl rfl) nofun
    | ensureRunning | switchEgress | stop => exact hsame (.inl rfl) nofun
  | begun egress start began => exact absurd rfl (h egress start began)
  | saved egress start =>
    split_ifs <;> exact hsame (.inr rfl) nofun
  | recording egress => exact leaves_none ⟨rfl, rfl, rfl, le_rfl⟩
  | switching egress saved =>
    split
    · exact leaves_none (later_refl b)
    · exact hsame (.inr (by cases saved <;> rfl)) nofun
  | checking egress proxy saved =>
    split_ifs
    · exact hsame (.inr rfl) nofun
    · exact hsame (.inl rfl) nofun
    · exact hsame (.inr (by cases saved <;> rfl)) nofun
  | changing egress saved => exact leaves_some ⟨rfl, rfl, rfl, le_rfl⟩ (.inl rfl) nofun
  | stopping after =>
    split_ifs
    · exact hsame (.inl rfl) nofun
    · cases after with
      | done => exact leaves_none ⟨rfl, rfl, rfl, le_rfl⟩
      | start | wipe => exact leaves_some ⟨rfl, rfl, rfl, le_rfl⟩ (.inl rfl) nofun
  | ensuring =>
    split_ifs
    · exact hsame (.inl rfl) nofun
    · exact leaves_none (later_refl b)
    · exact leaves_some ⟨rfl, rfl, rfl, le_rfl⟩ (.inl rfl) nofun
  | launching =>
    split
    · exact leaves_none ⟨rfl, rfl, rfl, le_rfl⟩
    · exact leaves_some ⟨rfl, rfl, rfl, le_rfl⟩ (.inl rfl) nofun
  | launched =>
    split
    · split_ifs <;> exact leaves_none ⟨rfl, rfl, rfl, le_rfl⟩
    · exact leaves_none (later_refl b)
  | wiping wasRunning =>
    split_ifs
    · exact hsame (.inl rfl) nofun
    · exact leaves_none (later_refl b)

end ProjectBrowser

variable {store : Option (Option Egress)}

/-- **What is stored was saved last**, and what a call has yet to choose is stored. -/
theorem sound_of_run (h : ((Calls.system program (new store)).restrict Fair).Reachable w) :
    w.shared.Sound ∧ ∀ i todo, w.call i = some todo → w.shared.Knows todo := by
  refine Calls.invariant (P := program) (I := Sound) (J := Knows) (sound_new store)
    (fun b c _ ↦ ⟨(fun e he ↦ by cases he), fun e start t heq ↦ by cases heq⟩)
    (fun w e _ hb ↦ ?_) (fun w i d todo hfair htodo hb hknows ↦ ?_) h
  · have hlater : Later w.shared (w.shared.happen e) := by
      cases e
      exact ⟨rfl, rfl, rfl, le_rfl⟩
    exact ⟨hlater.sound hb, fun q hq ↦ hlater.knows hq⟩
  by_cases hbegun : ∃ e start t, todo = .begun e start t
  case neg =>
    have hleaves : w.shared.Leaves todo (w.shared.step todo d) :=
      leaves_step fun e start t heq ↦ hbegun ⟨e, start, t, heq⟩
    refine ⟨hleaves.later.sound hb, fun q hq ↦ ⟨fun e he ↦ ?_, hleaves.begun q hq⟩,
      fun j q _ hq ↦ hleaves.later.knows (hknows j q hq)⟩
    exact ((hknows i todo htodo).choosing e (hleaves.choosing q hq e he)).trans
      hleaves.later.latest.symm
  case pos =>
    obtain ⟨e, start, t, rfl⟩ := hbegun
    simp only [Fair, htodo] at hfair
    have ht := (hknows i _ htodo).begun e start t rfl
    simp only [program, ProjectBrowser.step]
    split_ifs
    · exact ⟨hb, (fun q hq ↦ by cases hq), fun j q _ hq ↦ hknows j q hq⟩
    · exact ⟨hb, (fun q hq ↦ by cases hq), fun j q _ hq ↦ hknows j q hq⟩
    · refine ⟨hb.save ht, fun q hq ↦ ?_, fun j q hj hq ↦ ⟨fun e' he' ↦ ?_, ?_⟩⟩
      · obtain rfl : Todo.saved e start = q := Option.some.inj hq
        exact ⟨fun e' he' ↦ (Option.some.inj he').symm, nofun⟩
      · exact not_not.1 fun hne ↦ hfair ⟨j, hj, q, hq, e', he', hne⟩
      · exact (hknows j q hq).begun

/-! ### What is chosen, and what Chrome was started with -/

/-- The call's next step sets the choice. -/
def Todo.sets : Todo → Option Egress
  | .recording egress | .changing egress _ => some egress
  | _ => none

theorem choice_step : (b.step todo d).1.choice = todo.sets.getD b.choice := by
  cases todo with simp only [ProjectBrowser.step]
  | call c =>
    cases c with
    | «open» egress => cases egress <;> rfl
    | clearData =>
      simp only [ProjectBrowser.step]
      split <;> rfl
    | _ => rfl
  | switching | launching =>
    split <;> rfl
  | launched =>
    split
    · split_ifs <;> rfl
    · rfl
  | recording | changing => rfl
  | _ =>
    split_ifs <;> rfl

/-- A call sets the choice to what was saved last. -/
theorem eq_latest_of_sets {i : ℕ} (hfair : Fair w (.step i d)) (htodo : w.call i = some todo)
    (hknows : w.shared.Knows todo) (he : todo.sets = some e) :
    e = w.shared.latest := by
  cases todo with
  | recording egress => exact hknows.choosing e he
  | changing egress saved =>
    cases saved with
    | true => exact hknows.choosing e he
    | false =>
      simp only [Fair, htodo] at hfair
      exact (Option.some.inj he).symm.trans hfair
  | _ => cases he

/-- A `set_egress` goes on with what it saved, unless that is the choice. -/
theorem choosing_step {i : ℕ} (hfair : Fair w (.step i d)) (htodo : w.call i = some todo)
    (he : todo.choosing = some e) (hsets : todo.sets = none)
    (hne : w.shared.choice ≠ e) : ∃ q ∈ (w.shared.step todo d).2, ∃ e, e ∈ q.choosing := by
  cases todo with
  | saved egress start =>
    simp only [ProjectBrowser.step]
    split_ifs <;> exact ⟨_, rfl, egress, rfl⟩
  | switching egress saved =>
    cases saved with
    | false => cases he
    | true =>
      obtain rfl : egress = e := Option.some.inj he
      simp only [Fair, htodo] at hfair
      obtain ⟨proxy, hproxy⟩ := Option.isSome_iff_exists.1 (hfair.resolve_right hne)
      simp only [ProjectBrowser.step, hproxy]
      exact ⟨_, rfl, egress, rfl⟩
  | checking egress proxy saved =>
    cases saved with
    | false => cases he
    | true =>
      obtain rfl : egress = e := Option.some.inj he
      simp only [ProjectBrowser.step]
      split_ifs with _ hfound
      · exact ⟨_, rfl, egress, rfl⟩
      · exact absurd hfound.2.1 hne
      · exact ⟨_, rfl, egress, rfl⟩
  | recording | changing => cases hsets
  | _ => cases he

/-- A choice other than the one saved last is owed by the call that saved. -/
theorem choosing_of_run (h : ((Calls.system program (new store)).restrict Fair).Reachable w)
    (hw : w.shared.choice ≠ w.shared.latest) :
    ∃ i todo, w.call i = some todo ∧ ∃ e, e ∈ todo.choosing := by
  refine Calls.owed_of_run (P := program) (κ := Unit)
    (W := fun b _ ↦ b.choice ≠ b.latest) (O := fun todo _ ↦ ∃ e, e ∈ todo.choosing)
    (fun _ hne ↦ hne rfl) (fun w e _ _ hne ↦ by cases e; exact hne)
    (fun w i d todo _ hw hfair htodo hwrong ↦ ?_) h (k := ()) hw
  have hknows := (sound_of_run hw).2 i todo htodo
  have hwrong : (w.shared.step todo d).1.choice ≠ (w.shared.step todo d).1.latest := hwrong
  by_cases hbegun : ∃ e start t, todo = .begun e start t
  case pos =>
    obtain ⟨e, start, t, rfl⟩ := hbegun
    simp only [ProjectBrowser.step] at hwrong
    simp only [program, ProjectBrowser.step]
    split_ifs at hwrong ⊢
    · exact .inl ⟨hwrong, fun ⟨_, he⟩ ↦ by cases he⟩
    · exact .inl ⟨hwrong, fun ⟨_, he⟩ ↦ by cases he⟩
    · exact .inr (.inl ⟨_, rfl, e, rfl⟩)
  have hlater := (leaves_step (b := w.shared) (d := d)
    fun e start t heq ↦ hbegun ⟨e, start, t, heq⟩).later
  rw [choice_step, hlater.latest] at hwrong
  cases hsets : todo.sets with
  | some e =>
    rw [hsets] at hwrong
    exact absurd (eq_latest_of_sets hfair htodo hknows hsets) hwrong
  | none =>
    rw [hsets] at hwrong
    cases hchoosing : todo.choosing with
    | none => exact .inl ⟨hwrong, fun ⟨_, he⟩ ↦ by cases he⟩
    | some e =>
      refine .inr (.inl (choosing_step hfair htodo hchoosing hsets ?_))
      rw [hknows.choosing e hchoosing]
      exact hwrong

variable {chrome : Chrome}

/-- A Chrome that runs or is being started after a step did so before it, or was started with the
choice. -/
theorem up_step (h : (b.step todo d).1.Up chrome) :
    b.Up chrome ∨ chrome.egress = b.choice := by
  cases todo with simp only [ProjectBrowser.step] at h
  | call c =>
    cases c with
    | «open» egress => cases egress <;> exact .inl h
    | clearData =>
      simp only [ProjectBrowser.step] at h
      split at h <;> exact .inl h
    | _ => exact .inl h
  | begun | saved | checking | wiping =>
    split_ifs at h <;> exact .inl h
  | recording | changing => exact .inl h
  | switching egress saved =>
    split at h <;> exact .inl h
  | stopping after =>
    split_ifs at h
    · exact .inl h
    · exact .inl (h.imp_left fun hrun ↦ by cases hrun)
  | ensuring =>
    split_ifs at h
    · exact .inl h
    · exact .inl h
    · rcases h with hrun | hlock
      · cases hrun
      · cases hlock
  | launching =>
    split at h
    · exact .inl (h.imp_right fun hlock ↦ by cases hlock)
    · rcases h with hrun | hlock
      · exact .inl (.inl hrun)
      · exact .inr (RunLock.launching.inj hlock ▸ rfl)
  | launched =>
    split at h
    case h_1 started hlock =>
      split_ifs at h
      · rcases h with hrun | hfree
        · exact .inl (.inr (hlock.trans (congrArg _ (Option.some.inj hrun))))
        · cases hfree
      · exact .inl (h.imp_right fun hfree ↦ by cases hfree)
    case h_2 => exact .inl h

/-- A Chrome started with another choice is owed by a call that stops it. -/
theorem stops_of_run (h : ((Calls.system program (new store)).restrict Fair).Reachable w)
    (hup : w.shared.Up chrome) (hne : chrome.egress ≠ w.shared.choice) :
    ∃ i todo, w.call i = some todo ∧ todo.Stops := by
  refine Calls.owed_of_run (P := program) (κ := Unit)
    (W := fun b _ ↦ ∃ chrome, b.Up chrome ∧ chrome.egress ≠ b.choice) (O := fun todo _ ↦ todo.Stops)
    (fun _ ⟨chrome, hup, _⟩ ↦ by rcases hup with hup | hup <;> cases hup)
    (fun w e _ _ ⟨chrome, hup, hne⟩ ↦ ?_)
    (fun w i d todo _ hw hfair htodo hwrong ↦ ?_) h (k := ()) ⟨chrome, hup, hne⟩
  · cases e
    rcases hup with hrun | hlock
    · obtain ⟨c, hc, rfl⟩ := Option.map_eq_some_iff.1 hrun
      exact ⟨c, .inl hc, hne⟩
    · exact ⟨chrome, .inr hlock, hne⟩
  obtain ⟨chrome, hup, hne⟩ := hwrong
  have hne : chrome.egress ≠ (w.shared.step todo d).1.choice := hne
  rw [choice_step] at hne
  by_cases hstops : todo.Stops
  case pos =>
    -- Either it waits for the lock, or there is no Chrome after the step.
    obtain ⟨after, rfl⟩ := hstops
    simp only [program, ProjectBrowser.step] at hup ⊢
    split_ifs at hup ⊢ with hlock
    · exact .inr (.inl ⟨_, rfl, after, rfl⟩)
    · rcases hup with hup | hup
      · cases hup
      · exact absurd (fun hfree ↦ by rw [hup] at hfree; cases hfree) hlock
  cases hsets : todo.sets with
  | none =>
    rw [hsets] at hne
    exact .inl ⟨⟨chrome, (up_step hup).resolve_right hne, hne⟩, hstops⟩
  | some e =>
    rw [hsets] at hne
    cases todo with
    | recording egress =>
      obtain rfl : egress = e := Option.some.inj hsets
      simp only [Fair, htodo] at hfair
      exact .inr (.inr (hfair.resolve_left fun hall ↦ hne (hall chrome hup)))
    | changing egress saved => exact .inr (.inl ⟨_, rfl, .start, rfl⟩)
    | _ => cases hsets

/-- **The stored egress, the choice and Chrome's egress are the same** when no call is in progress,
and they are that of a call to `set_egress` that none begun after it has replaced. -/
theorem egress_agrees (store : Option (Option Egress)) (w : Calls ProjectBrowser Todo)
    (h : ((Calls.system program (new store)).restrict Fair).Reachable w) (hquiet : w.Quiet) :
    (∀ row ∈ w.shared.store, row.getD .direct = w.shared.choice) ∧
    (∀ chrome ∈ w.shared.run, chrome.egress = w.shared.choice) ∧
    (w.shared.saves = [] ∧ w.shared.choice = w.shared.initial ∨
      ∃ x ∈ w.shared.saves, x.egress = w.shared.choice ∧ ∀ y ∈ w.shared.saves, y.began < x.saved) := by
  have hsound := (sound_of_run h).1
  have hchoice : w.shared.choice = w.shared.latest :=
    by_contra fun hne ↦ hquiet.not_owed (choosing_of_run h hne)
  refine ⟨fun row hrow ↦ (hsound.store row hrow).trans hchoice.symm, fun chrome hrun ↦ ?_, ?_⟩
  · exact by_contra fun hne ↦ hquiet.not_owed (stops_of_run h (.inl hrun) hne)
  · rw [hchoice, latest]
    cases hsaves : w.shared.saves with
    | nil => exact .inl ⟨rfl, rfl⟩
    | cons x rest =>
      have hlast := hsound.last x (by rw [hsaves]; rfl)
      exact .inr ⟨x, List.mem_cons_self, rfl, fun y hy ↦ hlast y (hsaves ▸ hy)⟩

/-! ### Runs -/

/-- Every step succeeds, and every computer is this server. -/
def succeeds : Found := ⟨fun _ ↦ some none, true⟩

/-- A proxy on this machine. -/
def tor : Egress := .proxy "socks5://127.0.0.1:9050"

/-- A browser that was not running is given a proxy and started. -/
def openWithProxy : List (CallAct Call Found Event) :=
  .start 0 (.open (some tor)) :: List.replicate 10 (.step 0 succeeds)

theorem allMeet_openWithProxy :
    AllMeet (Calls.act program) Fair (.idle (new (some none))) openWithProxy := by
  have halone : ¬ (List.foldl (Calls.act program) (.idle (new (some none)))
      [.start 0 (.open (some tor)), .step 0 succeeds]).Another 0
      fun q ↦ ∃ e ∈ q.choosing, e ≠ tor := by
    rintro ⟨j, hj, q, hq, -⟩
    rw [Calls.call_foldl_of_startsBelow (n := 1) rfl (Nat.pos_of_ne_zero hj)] at hq
    cases hq
  exact ⟨trivial, trivial, halone, trivial, .inl rfl, trivial, trivial, trivial, trivial, trivial,
    trivial, trivial⟩

theorem egress_agrees_openWithProxy :
    (openWithProxy.foldl (Calls.act program) (.idle (new (some none)))).shared.store =
      some (some tor) ∧
    ∀ chrome ∈ (openWithProxy.foldl (Calls.act program) (.idle (new (some none)))).shared.run,
      chrome.egress = tor := by
  have hagrees := egress_agrees (some none) _
    (.foldl_of_allMeet (S := Calls.system program _) (fun _ _ ↦ rfl) (.start rfl)
      allMeet_openWithProxy)
    (Calls.quiet_foldl 1 rfl fun i hi ↦ by interval_cases i; rfl)
  exact ⟨rfl, hagrees.2.1⟩

/-- Another proxy. -/
def squid : Egress := .proxy "http://127.0.0.1:3128"

/-- A call chooses one proxy, and has stored it; another stores and records another one; then the
first goes on. -/
def chooseTwice : List (CallAct Call Found Event) :=
  [.start 0 (.setEgress tor true), .step 0 succeeds, .step 0 succeeds, .step 0 succeeds,
    .step 0 succeeds, .start 1 (.setEgress squid false), .step 1 succeeds, .step 1 succeeds,
    .step 1 succeeds, .step 1 succeeds, .step 0 succeeds, .step 0 succeeds, .step 0 succeeds,
    .step 0 succeeds, .step 0 succeeds, .step 0 succeeds]

/-- They do not agree in every run: one egress is stored, and Chrome runs on another. -/
theorem not_egress_agrees :
    ¬ ∀ store w, (Calls.system program (new store)).Reachable w → w.Quiet →
      (∀ row ∈ w.shared.store, row.getD .direct = w.shared.choice) ∧
      (∀ chrome ∈ w.shared.run, chrome.egress = w.shared.choice) := by
  intro h
  have hstore := (h (some none) _ (reachable_foldl chooseTwice)
    (Calls.quiet_foldl 2 rfl fun i hi ↦ by interval_cases i <;> rfl)).1 (some squid) rfl
  exact absurd hstore (by decide)

end Ember.Server.Browser
