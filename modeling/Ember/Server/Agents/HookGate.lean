import Ember.Foundation.History
import Ember.Foundation.Runs
import Ember.Server.Agents.Antigravity

/-!
# What the approval hook lets through

The statements are about the log of a run: what `decide` answered, and what had happened before.

## What is proved

* `hookGate` — in every interleaving: a call is answered allow only if no string among its arguments
  mentions a session root and, at some moment of the call at which a turn was open, either it only
  reads inside its workspaces or agy's own folder, or the policy was `Gated` and the tool allowed
  always, or the user then answered allow to this very call. After a `close` returned and until the
  next `open`, a call that reads the state is denied without asking, and what is pending, or takes
  an answer, was registered after the close by a call that had read the state while a turn was open.
* `not_strictGate` — runs that show what does not hold: a read in agy's own folder is let through
  although it is in no workspace; an answer is used although the turn closed after it; and an
  approval is registered after the turn closed.
-/

namespace Ember.Server.Antigravity

open History FileTree

/-! ### Strings in arguments -/

mutual

/-- The string is a value somewhere in `v`; the keys of objects do not count. -/
def HasString (s : String) : Value → Prop
  | .str s' => s = s'
  | .arr a => HasStringElems s a
  | .obj o => HasStringFields s o
  | _ => False

/-- The string is a value somewhere in an element. -/
def HasStringElems (s : String) : List Value → Prop
  | [] => False
  | v :: vs => HasString s v ∨ HasStringElems s vs

/-- The string is a value somewhere in a field. -/
def HasStringFields (s : String) : List (String × Value) → Prop
  | [] => False
  | (_, v) :: vs => HasString s v ∨ HasStringFields s vs

end

/-- Some root is part of the string. -/
def NamesRoot (roots : List String) (s : String) : Prop := ∃ r ∈ roots, r.toList <:+: s.toList

mutual

theorem namesRoot_of_mentions {roots : List String} :
    ∀ v : Value, mentions roots v = false → ∀ s, HasString s v → ¬ NamesRoot roots s
  | .str s', h, s, hs => by
    obtain rfl : s = s' := hs
    rintro ⟨r, hr, hin⟩
    simp only [mentions, List.any_eq_false] at h
    exact h r hr (by simpa [containsStr] using hin)
  | .arr a, h, s, hs => namesRoot_of_mentionsElems a (by simpa [mentions] using h) s hs
  | .obj o, h, s, hs => namesRoot_of_mentionsFields o (by simpa [mentions] using h) s hs
  | .null, _, _, hs | .bool _, _, _, hs | .int _, _, _, hs | .float _, _, _, hs => hs.elim

theorem namesRoot_of_mentionsElems {roots : List String} :
    ∀ vs : List Value, mentionsElems roots vs = false →
      ∀ s, HasStringElems s vs → ¬ NamesRoot roots s
  | [], _, _, hs => hs.elim
  | v :: vs, h, s, hs => by
    simp only [mentionsElems, Bool.or_eq_false_iff] at h
    exact hs.elim (namesRoot_of_mentions v h.1 s) (namesRoot_of_mentionsElems vs h.2 s)

theorem namesRoot_of_mentionsFields {roots : List String} :
    ∀ vs : List (String × Value), mentionsFields roots vs = false →
      ∀ s, HasStringFields s vs → ¬ NamesRoot roots s
  | [], _, _, hs => hs.elim
  | (_, v) :: vs, h, s, hs => by
    simp only [mentionsFields, Bool.or_eq_false_iff] at h
    exact hs.elim (namesRoot_of_mentions v h.1 s) (namesRoot_of_mentionsFields vs h.2 s)

end

/-! ### What a log says -/

/-- Whether a turn is open, and whether a `close` has returned since the last `open`. -/
def turnAfter : Bool × Bool → Happening → Bool × Bool
  | _, .opened => (true, false)
  | (_, isOver), .shut => (false, isOver)
  | (isOpen, _), .closed => (isOpen, !isOpen)
  | t, _ => t

/-- A turn is open after this history. -/
def turnOpen (h : List Happening) : Bool := (h.foldl turnAfter (false, false)).1

/-- A `close` has returned and no turn opened since. -/
def turnOver (h : List Happening) : Bool := (h.foldl turnAfter (false, false)).2

/-- The policy after this history. -/
def policyAt (p : Policy) (h : List Happening) : Policy :=
  h.foldl (fun p e ↦ match e with | .policySet p' => p' | _ => p) p

/-- The user has allowed the tool always. -/
def AllowedAlways (h : List Happening) (tool : String) : Prop :=
  ∃ n, .answered n tool .allowAlways ∈ h

/-- The user has answered allow to call `n`. -/
def AnsweredAllow (h : List Happening) (n : ℕ) : Prop :=
  ∃ tool decision, decision ≠ .deny ∧ .answered n tool decision ∈ h

/-- Call `n` has read the state at a moment when a turn was open. -/
def LookedOpen (h : List Happening) (n : ℕ) : Prop :=
  ∃ m, m ++ [.looked n] <+: h ∧ turnOpen m = true

/-- Call `n` has registered its approval after the last `close` returned and before any `open`, and
had read the state before, while a turn was open. -/
def RegisteredLate (h : List Happening) (n : ℕ) : Prop :=
  ∃ pre post, h = pre ++ .registered n :: post ∧ .closed ∉ post ∧ turnOver pre = true ∧
    LookedOpen pre n

/-- What lets call `n` through, on the history up to its answer. -/
def Cleared (roots : List String) (p : Policy) (h : List Happening) (n : ℕ) : Prop :=
  ∃ payload uuid m, m <+: h ∧ .arrived n payload uuid ∈ m ∧ turnOpen m = true ∧
    (∀ s, HasString s (HookCall.fromPayload payload uuid).input → ¬ NamesRoot roots s) ∧
    (readsInside (workspaces payload ++ brain payload) (.fromPayload payload uuid) = true ∨
      policyAt p m = .gated ∧
        (AllowedAlways m (HookCall.fromPayload payload uuid).tool ∨ AnsweredAllow h n))

/-- What the hook guarantees of a run that began with the policy `p`. -/
structure HookGate (p : Policy) (r : RunApprovals) : Prop where
  /-- What is answered allow was cleared. -/
  allowed : Throughout (fun pre e ↦ ∀ n, e = .replied n true → Cleared r.roots p pre n) r.log
  /-- A call that reads the state after a close is denied without asking. -/
  denied : ∀ m n, m ++ [.looked n] <+: r.log → turnOver m = true →
    .registered n ∉ r.log ∧ .replied n true ∉ r.log
  /-- What is pending after a close was registered after it. -/
  pending : turnOver r.log = true → ∀ (id tool : String) (n : ℕ),
    r.pending[id]? = some (tool, n) → RegisteredLate r.log n
  /-- What is answered after a close was registered after it. -/
  answered : Throughout (fun pre e ↦ ∀ n tool d, e = .answered n tool d → turnOver pre = true →
    RegisteredLate pre n) r.log

/-! ### One more entry -/

section Concat

variable (h : List Happening) (e : Happening) (p : Policy)

theorem turn_concat :
    (turnOpen (h ++ [e]), turnOver (h ++ [e])) = turnAfter (turnOpen h, turnOver h) e := by
  simp [turnOpen, turnOver]

theorem turnOpen_concat :
    turnOpen (h ++ [e]) = (turnAfter (turnOpen h, turnOver h) e).1 := by
  rw [← turn_concat]

theorem turnOver_concat :
    turnOver (h ++ [e]) = (turnAfter (turnOpen h, turnOver h) e).2 := by
  rw [← turn_concat]

theorem policyAt_concat :
    policyAt p (h ++ [e]) = match e with | .policySet p' => p' | _ => policyAt p h := by
  simp [policyAt]

variable {h e}

/-- A turn that is over is not open. -/
theorem turnOpen_of_turnOver (hover : turnOver h = true) : turnOpen h = false := by
  induction h using List.reverseRecOn with
  | nil => rfl
  | append_singleton h e ih =>
    rw [turnOver_concat] at hover
    rw [turnOpen_concat]
    cases e <;> simp_all [turnAfter]

/-- A turn that is over was over before entries that do not close it. -/
theorem turnOver_of_append {pre post : List Happening} (hpost : .closed ∉ post)
    (hover : turnOver (pre ++ post) = true) : turnOver pre = true := by
  induction post using List.reverseRecOn with
  | nil => simpa using hover
  | append_singleton post e ih =>
    rw [← List.append_assoc, turnOver_concat] at hover
    have he : e ≠ .closed := by
      rintro rfl
      exact hpost (by simp)
    refine ih (fun hmem ↦ hpost (List.mem_append_left _ hmem)) ?_
    cases e <;> simp_all [turnAfter]

end Concat

section Prefix

variable {h h' : List Happening} {n : ℕ} {tool : String}

theorem LookedOpen.mono (hl : LookedOpen h n) (hh : h <+: h') : LookedOpen h' n := by
  obtain ⟨m, hm, hopen⟩ := hl
  exact ⟨m, hm.trans hh, hopen⟩

theorem AnsweredAllow.mono (ha : AnsweredAllow h n) (hh : h <+: h') : AnsweredAllow h' n := by
  obtain ⟨tool, d, hd, hmem⟩ := ha
  exact ⟨tool, d, hd, hh.subset hmem⟩

theorem Cleared.mono {roots : List String} {p : Policy} (hc : Cleared roots p h n)
    (hh : h <+: h') : Cleared roots p h' n := by
  obtain ⟨payload, uuid, m, hm, harr, hopen, hment, hwhy⟩ := hc
  refine ⟨payload, uuid, m, hm.trans hh, harr, hopen, hment, hwhy.imp_right fun ⟨hp, hw⟩ ↦ ?_⟩
  exact ⟨hp, hw.imp_right fun ha ↦ ha.mono hh⟩

end Prefix

/-! ### The invariant -/

/-- Call `n` has read the state, and this is what it made of it. -/
def Judged (roots : List String) (p : Policy) (h : List Happening) (n : ℕ) (c : Call)
    (v : Option Value) : Prop :=
  ∃ m uuid seen, m ++ [.looked n] <+: h ∧ .arrived n c.payload uuid ∈ m ∧
    c.call = .fromPayload c.payload uuid ∧ seen.isOpen = turnOpen m ∧ seen.policy = policyAt p m ∧
    (seen.always = true → AllowedAlways m c.call.tool) ∧ verdict roots seen c.payload c.call = v

/-- What a call's phase says about the history. -/
def PhaseInv (roots : List String) (p : Policy) (h : List Happening) (n : ℕ) (c : Call) : Prop :=
  match c.phase with
  | .arrived => .looked n ∉ h ∧ ∃ uuid, .arrived n c.payload uuid ∈ h ∧
      c.call = .fromPayload c.payload uuid
  | .asking | .registered | .unasked | .waiting | .expired | .telling _ =>
      Judged roots p h n c none
  | .replying v => isAllow v = true → Cleared roots p h n ∧ LookedOpen h n
  | .replied => True

/-- What an entry needs of the history before it. -/
def Sound (roots : List String) (p : Policy) (h : List Happening) : Happening → Prop
  | .looked n => .looked n ∉ h
  | .registered n => LookedOpen h n
  | .answered n _ _ => turnOver h = true → RegisteredLate h n
  | .replied n allow => allow = true → Cleared roots p h n ∧ LookedOpen h n
  | _ => True

/-- Call `n` was registered since the last close. -/
def Registered (h : List Happening) (n : ℕ) : Prop :=
  ∃ pre post, h = pre ++ .registered n :: post ∧ .closed ∉ post ∧ LookedOpen pre n

/-- **The invariant**: the state is what the log says, every call is where its phase says, and what
is pending was registered since the last close. -/
structure Inv (p : Policy) (r : RunApprovals) : Prop where
  isOpen : r.isOpen = turnOpen r.log
  policy : r.policy = policyAt p r.log
  always : ∀ t, t ∈ r.alwaysAllowed → AllowedAlways r.log t
  unseen : ∀ n, r.calls n = none → .looked n ∉ r.log
  phase : ∀ n c, r.calls n = some c → PhaseInv r.roots p r.log n c
  answer : ∀ n c d, r.calls n = some c → c.answer = .sent d → ∃ tool, .answered n tool d ∈ r.log
  pending : ∀ (id tool : String) (n : ℕ), r.pending[id]? = some (tool, n) → Registered r.log n
  sound : Throughout (Sound r.roots p) r.log

variable {roots : List String} {p : Policy} {h h' : List Happening} {n : ℕ} {c : Call}
  {r r' : RunApprovals}

theorem Registered.late (hr : Registered h n) (hover : turnOver h = true) : RegisteredLate h n := by
  obtain ⟨pre, post, rfl, hpost, hlook⟩ := hr
  exact ⟨pre, post, rfl, hpost, turnOver_of_append (by simpa using hpost) hover, hlook⟩

theorem Registered.concat {e : Happening} (hr : Registered h n) (he : e ≠ .closed) :
    Registered (h ++ [e]) n := by
  obtain ⟨pre, post, rfl, hpost, hlook⟩ := hr
  refine ⟨pre, post ++ [e], by simp, ?_, hlook⟩
  simpa using ⟨hpost, he.symm⟩

theorem Judged.mono {v : Option Value} (hj : Judged roots p h n c v) (hh : h <+: h') :
    Judged roots p h' n c v := by
  obtain ⟨m, uuid, seen, hm, hrest⟩ := hj
  exact ⟨m, uuid, seen, hm.trans hh, hrest⟩

/-- A call that is to ask the user looked while a turn was open. -/
theorem Judged.lookedOpen (hj : Judged roots p h n c none) : LookedOpen h n := by
  obtain ⟨m, uuid, seen, hm, -, -, hopen, -, -, hv⟩ := hj
  exact ⟨m, hm, hopen ▸ (of_verdict_eq_none hv).1⟩

theorem PhaseInv.concat {e : Happening} (hc : PhaseInv roots p h n c)
    (he : c.phase = .arrived → e ≠ .looked n) : PhaseInv roots p (h ++ [e]) n c := by
  have hh := List.prefix_append h [e]
  unfold PhaseInv at hc ⊢
  split at hc
  · next hphase =>
    obtain ⟨hlook, uuid, harr, hcall⟩ := hc
    exact ⟨by simpa using ⟨hlook, (he hphase).symm⟩, uuid, hh.subset harr, hcall⟩
  · exact hc.mono hh
  · exact hc.mono hh
  · exact hc.mono hh
  · exact hc.mono hh
  · exact hc.mono hh
  · exact hc.mono hh
  · exact fun hv ↦ ⟨(hc hv).1.mono hh, (hc hv).2.mono hh⟩
  · trivial

/-! ### Steps that record nothing -/

/-- `r'` differs from `r` in what waits for an answer only: entries are gone, with their senders, and
events were sent. -/
structure Withdrawn (r r' : RunApprovals) : Prop where
  roots : r'.roots = r.roots
  isOpen : r'.isOpen = r.isOpen
  policy : r'.policy = r.policy
  always : r'.alwaysAllowed = r.alwaysAllowed
  log : r'.log = r.log
  pending : ∀ (id : String) v, r'.pending[id]? = some v → r.pending[id]? = some v
  calls : ∀ n, r'.calls n = r.calls n ∨ r'.calls n = (r.calls n).map RunApprovals.Call.drop

theorem Inv.withdrawn (hi : Inv p r) (hw : Withdrawn r r') : Inv p r' := by
  have hcall : ∀ n c', r'.calls n = some c' → ∃ c, r.calls n = some c ∧ c'.payload = c.payload ∧
      c'.call = c.call ∧ c'.phase = c.phase ∧ ∀ d, c'.answer = .sent d → c.answer = .sent d := by
    intro n c' hc'
    rcases hw.calls n with h | h
    · exact ⟨c', h ▸ hc', rfl, rfl, rfl, fun _ h ↦ h⟩
    · rw [hc'] at h
      obtain ⟨c, hc, rfl⟩ := Option.map_eq_some_iff.1 h.symm
      refine ⟨c, hc, rfl, rfl, rfl, fun d hd ↦ ?_⟩
      simp only [RunApprovals.Call.drop] at hd
      split at hd
      · cases hd
      · exact hd
  refine ⟨?_, ?_, ?_, ?_, ?_, ?_, ?_, ?_⟩
  · rw [hw.isOpen, hw.log, hi.isOpen]
  · rw [hw.policy, hw.log, hi.policy]
  · rw [hw.always, hw.log]
    exact hi.always
  · intro n hn
    rw [hw.log]
    refine hi.unseen n ?_
    rcases hw.calls n with h | h <;> simpa [hn] using h.symm
  · intro n c' hc'
    obtain ⟨c, hc, hpay, hcl, hph, -⟩ := hcall n c' hc'
    have := hi.phase n c hc
    simp only [PhaseInv, Judged, hw.roots, hw.log, hpay, hcl, hph] at this ⊢
    exact this
  · intro n c' d hc' hd
    obtain ⟨c, hc, -, -, -, hans⟩ := hcall n c' hc'
    rw [hw.log]
    exact hi.answer n c d hc (hans d hd)
  · intro id tool n hid
    rw [hw.log]
    exact hi.pending id tool n (hw.pending id _ hid)
  · rw [hw.roots, hw.log]
    exact hi.sound

theorem withdrawn_dropSenders (r : RunApprovals) (ns : List ℕ) :
    Withdrawn r (r.dropSenders ns) := by
  refine ⟨rfl, rfl, rfl, rfl, rfl, fun _ _ h ↦ h, fun n ↦ ?_⟩
  by_cases hn : n ∈ ns
  · exact .inr (by simp [RunApprovals.dropSenders, hn])
  · exact .inl (by simp [RunApprovals.dropSenders, hn])

theorem withdrawn_tell (r : RunApprovals) (delivered : Bool) (e : AgentEvent) :
    Withdrawn r (r.tell delivered e) := by
  unfold RunApprovals.tell
  split <;> exact ⟨rfl, rfl, rfl, rfl, rfl, fun _ _ h ↦ h, fun _ ↦ .inl rfl⟩

theorem withdrawn_removePending (r : RunApprovals) (id : String) :
    Withdrawn r (r.removePending id) := by
  unfold RunApprovals.removePending
  split
  · exact ⟨rfl, rfl, rfl, rfl, rfl, fun _ _ h ↦ h, fun _ ↦ .inl rfl⟩
  · next n _ =>
    obtain ⟨-, -, -, -, -, -, hcalls⟩ := withdrawn_dropSenders r [n]
    refine ⟨rfl, rfl, rfl, rfl, rfl, fun id' v h ↦ ?_, hcalls⟩
    rw [RunApprovals.dropSenders, Std.ExtTreeMap.getElem?_erase] at h
    split at h
    · cases h
    · exact h

variable {phase : Phase}

/-- A call gets to a phase that fits the history. -/
theorem Inv.setPhase (hi : Inv p r)
    (hphase : ∀ c, r.calls n = some c → PhaseInv r.roots p r.log n { c with phase := phase }) :
    Inv p (r.setPhase n phase) := by
  refine ⟨hi.isOpen, hi.policy, hi.always, fun k hk ↦ ?_, fun k c hc ↦ ?_, fun k c d hc hd ↦ ?_,
    hi.pending, hi.sound⟩
  all_goals by_cases hkn : k = n
  · subst hkn
    exact hi.unseen k (by simpa [RunApprovals.setPhase, RunApprovals.modifyCall] using hk)
  · exact hi.unseen k (RunApprovals.calls_setPhase_of_ne r hkn _ ▸ hk)
  · subst hkn
    obtain ⟨c', hc', rfl⟩ := RunApprovals.exists_of_calls_setPhase hc
    exact hphase c' hc'
  · exact hi.phase k c (RunApprovals.calls_setPhase_of_ne r hkn _ ▸ hc)
  · subst hkn
    obtain ⟨c', hc', rfl⟩ := RunApprovals.exists_of_calls_setPhase hc
    exact hi.answer k c' d hc' hd
  · exact hi.answer k c d (RunApprovals.calls_setPhase_of_ne r hkn _ ▸ hc) hd

/-! ### Steps that record an entry -/

/-- The entries a call makes on its way. -/
def Happening.IsOf (n : ℕ) (e : Happening) : Prop :=
  e = .looked n ∨ e = .registered n ∨ ∃ allow, e = .replied n allow

/-- A call gets to a phase and says so: what is left to show is about the new entry and the new
phase. -/
theorem Inv.advance {e : Happening} (hi : Inv p r) (he : e.IsOf n) (hroots : r'.roots = r.roots)
    (hopen : r'.isOpen = r.isOpen) (hpolicy : r'.policy = r.policy)
    (halways : r'.alwaysAllowed = r.alwaysAllowed) (hlog : r'.log = r.log ++ [e])
    (hcalls : r'.calls = (r.setPhase n phase).calls) (hc : r.calls n = some c)
    (hpending : ∀ (id tool : String) (k : ℕ), r'.pending[id]? = some (tool, k) →
      r.pending[id]? = some (tool, k) ∨ Registered (r.log ++ [e]) k)
    (hsound : Sound r.roots p r.log e)
    (hphase : PhaseInv r.roots p (r.log ++ [e]) n { c with phase := phase }) : Inv p r' := by
  have hclosed : e ≠ .closed := by rcases he with rfl | rfl | ⟨_, rfl⟩ <;> simp
  have hother : ∀ k, k ≠ n → e ≠ .looked k := fun k hk ↦ by
    rcases he with rfl | rfl | ⟨_, rfl⟩ <;> simp [hk.symm]
  have hcall : ∀ k, k ≠ n → r'.calls k = r.calls k := fun k hk ↦ by
    rw [hcalls, RunApprovals.calls_setPhase_of_ne r hk]
  have hself : r'.calls n = some { c with phase := phase } := by
    rw [hcalls, RunApprovals.calls_setPhase_self hc]
  refine ⟨?_, ?_, ?_, ?_, ?_, ?_, ?_, ?_⟩
  · rw [hopen, hlog, hi.isOpen, turnOpen_concat]
    rcases he with rfl | rfl | ⟨_, rfl⟩ <;> rfl
  · rw [hpolicy, hlog, hi.policy, policyAt_concat]
    rcases he with rfl | rfl | ⟨_, rfl⟩ <;> rfl
  · intro t ht
    obtain ⟨k, hk⟩ := hi.always t (halways ▸ ht)
    exact ⟨k, by simp [hlog, hk]⟩
  · intro k hk
    by_cases hkn : k = n
    · rw [hkn, hself] at hk
      cases hk
    · rw [hcall k hkn] at hk
      rw [hlog, List.mem_append, List.mem_singleton]
      exact not_or.2 ⟨hi.unseen k hk, (hother k hkn).symm⟩
  · intro k c' hc'
    rw [hroots, hlog]
    by_cases hkn : k = n
    · subst hkn
      rw [hself] at hc'
      exact Option.some.inj hc' ▸ hphase
    · exact (hi.phase k c' (hcall k hkn ▸ hc')).concat fun _ ↦ hother k hkn
  · intro k c' d hc' hd
    have : ∃ c'', r.calls k = some c'' ∧ c''.answer = .sent d := by
      by_cases hkn : k = n
      · subst hkn
        rw [hself] at hc'
        exact ⟨c, hc, by rw [← Option.some.inj hc'] at hd; exact hd⟩
      · exact ⟨c', hcall k hkn ▸ hc', hd⟩
    obtain ⟨c'', hc'', hd''⟩ := this
    obtain ⟨tool, htool⟩ := hi.answer k c'' d hc'' hd''
    exact ⟨tool, by simp [hlog, htool]⟩
  · intro id tool k hid
    rw [hlog]
    exact (hpending id tool k hid).elim (fun h ↦ (hi.pending id tool k h).concat hclosed)
      fun h ↦ h
  · rw [hroots, hlog]
    exact hi.sound.concat hsound

/-- An operation of the session that leaves calls and approvals alone. -/
theorem Inv.operate {e : Happening} (hi : Inv p r) (hroots : r'.roots = r.roots)
    (halways : r'.alwaysAllowed = r.alwaysAllowed) (hlog : r'.log = r.log ++ [e])
    (hcalls : r'.calls = r.calls) (hopen : r'.isOpen = turnOpen (r.log ++ [e]))
    (hpolicy : r'.policy = policyAt p (r.log ++ [e])) (hlooked : ∀ k, e ≠ .looked k)
    (hpending : ∀ (id tool : String) (k : ℕ), r'.pending[id]? = some (tool, k) →
      r.pending[id]? = some (tool, k) ∧ e ≠ .closed)
    (hsound : Sound r.roots p r.log e) : Inv p r' := by
  refine ⟨hlog ▸ hopen, hlog ▸ hpolicy, ?_, ?_, ?_, ?_, ?_, ?_⟩
  · intro t ht
    obtain ⟨k, hk⟩ := hi.always t (halways ▸ ht)
    exact ⟨k, by simp [hlog, hk]⟩
  · intro k hk
    rw [hlog, List.mem_append, List.mem_singleton]
    exact not_or.2 ⟨hi.unseen k (hcalls ▸ hk), (hlooked k).symm⟩
  · intro k c hc
    rw [hroots, hlog]
    exact (hi.phase k c (hcalls ▸ hc)).concat fun _ ↦ hlooked k
  · intro k c d hc hd
    obtain ⟨tool, htool⟩ := hi.answer k c d (hcalls ▸ hc) hd
    exact ⟨tool, by simp [hlog, htool]⟩
  · intro id tool k hid
    obtain ⟨hold, hclosed⟩ := hpending id tool k hid
    rw [hlog]
    exact (hi.pending id tool k hold).concat hclosed
  · rw [hroots, hlog]
    exact hi.sound.concat hsound

theorem inv_new (roots : List String) (p : Policy) : Inv p (.new roots p) := by
  refine ⟨rfl, rfl, ?_, ?_, ?_, ?_, ?_, ?_⟩ <;> simp [RunApprovals.new]

theorem Inv.setPolicy (hi : Inv p r) (p' : Policy) : Inv p (r.setPolicy p') :=
  hi.operate rfl rfl rfl rfl (by rw [turnOpen_concat]; exact hi.isOpen)
    (by rw [policyAt_concat]; rfl) (by simp) (fun _ _ _ h ↦ ⟨h, by simp⟩) trivial

theorem Inv.openTurn (hi : Inv p r) : Inv p r.openTurn :=
  hi.operate rfl rfl rfl rfl (by rw [turnOpen_concat]; rfl)
    (by rw [policyAt_concat]; exact hi.policy) (by simp) (fun _ _ _ h ↦ ⟨h, by simp⟩) trivial

theorem Inv.shut (hi : Inv p r) : Inv p r.shut :=
  hi.operate rfl rfl rfl rfl (by rw [turnOpen_concat]; rfl)
    (by rw [policyAt_concat]; exact hi.policy) (by simp) (fun _ _ _ h ↦ ⟨h, by simp⟩) trivial

theorem Inv.cancelAll (hi : Inv p r) (accepted : String → Bool) : Inv p (r.cancelAll accepted) := by
  unfold RunApprovals.cancelAll
  split
  · exact hi
  · next k _ =>
    -- the senders go first: the log and the rest of the state do not depend on it
    refine (hi.withdrawn (withdrawn_dropSenders r (r.pending.values.map Prod.snd))).operate
      rfl rfl rfl rfl ?_ ?_ (by simp) ?_ trivial
    · rw [turnOpen_concat]
      exact hi.isOpen
    · rw [policyAt_concat]
      exact hi.policy
    · intro id tool k hid
      simp [RunApprovals.note, RunApprovals.dropSenders] at hid

theorem Inv.answering (hi : Inv p r) (id : String) (decision : ApprovalDecision) :
    Inv p (r.answer id decision) := by
  unfold RunApprovals.answer
  split
  · exact hi
  · next tool n hid =>
    have hreg := hi.pending id tool n hid
    refine ⟨?_, ?_, ?_, ?_, ?_, ?_, ?_, ?_⟩
    · exact hi.isOpen.trans (turnOpen_concat r.log (.answered n tool decision)).symm
    · exact hi.policy.trans (policyAt_concat r.log (.answered n tool decision) p).symm
    · intro t ht
      rcases List.mem_append.1 ht with ht | ht
      · split at ht
        · next hd =>
          obtain rfl := List.mem_singleton.1 ht
          exact ⟨n, by simp [RunApprovals.note, hd]⟩
        · cases ht
      · obtain ⟨k, hk⟩ := hi.always t ht
        exact ⟨k, List.mem_append_left _ hk⟩
    · intro k hk
      have hk' : r.calls k = none := by
        by_cases hkn : k = n
        · subst hkn
          simpa [RunApprovals.note, RunApprovals.modifyCall] using hk
        · simpa [RunApprovals.note, RunApprovals.modifyCall, hkn] using hk
      simpa [RunApprovals.note, RunApprovals.modifyCall] using hi.unseen k hk'
    · intro k c' hc'
      obtain ⟨c, hc, hpay, hcl, hph, -⟩ := RunApprovals.exists_of_calls_answered hc'
      have := (hi.phase k c hc).concat (e := .answered n tool decision) (by simp)
      simp only [PhaseInv, Judged, hpay, hcl, hph] at this ⊢
      exact this
    · intro k c' d hc' hd
      obtain ⟨c, hc, -, -, -, hans⟩ := RunApprovals.exists_of_calls_answered hc'
      rcases hans with ⟨rfl, hans⟩ | hans
      · refine ⟨tool, ?_⟩
        obtain rfl : decision = d := by simpa [hans] using hd
        simp [RunApprovals.note]
      · obtain ⟨tool', htool⟩ := hi.answer k c d hc (hans ▸ hd)
        exact ⟨tool', List.mem_append_left _ htool⟩
    · intro id' tool' k hid'
      have : r.pending[id']? = some (tool', k) := by
        simp only [RunApprovals.note, RunApprovals.modifyCall,
          Std.ExtTreeMap.getElem?_erase] at hid'
        split at hid'
        · cases hid'
        · exact hid'
      exact (hi.pending id' tool' k this).concat (by simp)
    · exact hi.sound.concat hreg.late

theorem Inv.arrive (hi : Inv p r) (n : ℕ) (payload : Value) (uuid : String) :
    Inv p (r.arrive n payload uuid) := by
  unfold RunApprovals.arrive
  split
  · exact hi
  · next hn =>
    refine ⟨?_, ?_, ?_, ?_, ?_, ?_, ?_, ?_⟩
    · exact hi.isOpen.trans (turnOpen_concat r.log (.arrived n payload uuid)).symm
    · exact hi.policy.trans (policyAt_concat r.log (.arrived n payload uuid) p).symm
    · intro t ht
      obtain ⟨k, hk⟩ := hi.always t ht
      exact ⟨k, List.mem_append_left _ hk⟩
    · intro k hk
      have hkn : k ≠ n := by
        rintro rfl
        simp [RunApprovals.note] at hk
      have hk' : r.calls k = none := by simpa [RunApprovals.note, hkn] using hk
      simpa [RunApprovals.note] using hi.unseen k hk'
    · intro k c hc
      by_cases hkn : k = n
      · subst hkn
        obtain rfl : _ = c := by simpa [RunApprovals.note] using hc
        exact ⟨by simpa [RunApprovals.note] using hi.unseen k hn, uuid, by simp [RunApprovals.note],
          rfl⟩
      · have hc' : r.calls k = some c := by simpa [RunApprovals.note, hkn] using hc
        exact (hi.phase k c hc').concat (by simp)
    · intro k c d hc hd
      by_cases hkn : k = n
      · subst hkn
        obtain rfl : _ = c := by simpa [RunApprovals.note] using hc
        cases hd
      · have hc' : r.calls k = some c := by simpa [RunApprovals.note, hkn] using hc
        obtain ⟨tool, htool⟩ := hi.answer k c d hc' hd
        exact ⟨tool, List.mem_append_left _ htool⟩
    · intro id tool k hid
      exact (hi.pending id tool k hid).concat (by simp)
    · exact hi.sound.concat trivial

/-- A call looks once. -/
theorem eq_of_looked {m m' : List Happening} (hs : Throughout (Sound roots p) h)
    (hm : m ++ [.looked n] <+: h) (hm' : m' ++ [.looked n] <+: h) : m = m' := by
  have hlt : ∀ a b : List Happening, a ++ [.looked n] <+: h → b ++ [.looked n] <+: h →
      ¬ a.length < b.length := by
    intro a b ha hb hlen
    obtain ⟨post, rfl⟩ := hb
    have hab : a ++ [.looked n] <+: b := by
      refine List.prefix_of_prefix_length_le ha ((List.prefix_append b _).trans
        (List.prefix_append _ _)) ?_
      rw [List.length_append, List.length_singleton]
      omega
    have hnot : .looked n ∉ b := hs b (.looked n) post (by simp)
    exact hnot (hab.subset (by simp))
  have hlen : m.length = m'.length :=
    le_antisymm (not_lt.1 (hlt m' m hm' hm)) (not_lt.1 (hlt m m' hm hm'))
  have heq := List.prefix_of_prefix_length_le hm hm' (by simp [hlen])
  exact (List.append_inj (heq.eq_of_length (by simp [hlen])) hlen).1

/-! ### The steps of a call -/

/-- What a call that looks makes of it fits the history. -/
theorem Inv.look (hi : Inv p r) (hc : r.calls n = some c) (harr : c.phase = .arrived) :
    Inv p (r.look n c) := by
  have hphase := hi.phase n c hc
  simp only [PhaseInv, harr] at hphase
  obtain ⟨hlook, uuid, hmem, hcall⟩ := hphase
  have hjudged : ∀ v, verdict r.roots (r.seen c.call) c.payload c.call = v →
      Judged r.roots p (r.log ++ [.looked n]) n c v := fun v hv ↦
    ⟨r.log, uuid, r.seen c.call, List.prefix_refl _, hmem, hcall, hi.isOpen, hi.policy,
      fun ha ↦ hi.always _ (by simpa [RunApprovals.seen] using ha), hv⟩
  refine hi.advance (.inl rfl) rfl rfl rfl rfl rfl rfl hc (fun _ _ _ h ↦ .inl h) hlook ?_
  split
  · next reply hv =>
    intro hallow
    obtain ⟨hopen, hment, hwhy⟩ := of_verdict_eq_allow hv hallow
    have hopen' : turnOpen r.log = true := hi.isOpen ▸ hopen
    refine ⟨⟨c.payload, uuid, r.log, List.prefix_append _ _, hmem, hopen', ?_, ?_⟩,
      r.log, List.prefix_refl _, hopen'⟩
    · rw [← hcall]
      exact namesRoot_of_mentions _ hment
    · rw [← hcall]
      refine hwhy.imp_right fun ⟨hp, ha⟩ ↦ ⟨hi.policy ▸ hp, .inl (hi.always _ ?_)⟩
      simpa [RunApprovals.seen] using ha
  · next hv => exact hjudged none hv

theorem Inv.register (hi : Inv p r) (hc : r.calls n = some c) (hask : c.phase = .asking) :
    Inv p (r.register n c) := by
  have hphase := hi.phase n c hc
  simp only [PhaseInv, hask] at hphase
  have hw := withdrawn_removePending r c.call.approvalId
  have hi' := hi.withdrawn hw
  obtain ⟨c', hc', hcc⟩ : ∃ c', (r.removePending c.call.approvalId).calls n = some c' ∧
      Judged r.roots p r.log n c' none := by
    rcases hw.calls n with h | h
    · exact ⟨c, h.trans hc, hphase⟩
    · exact ⟨RunApprovals.Call.drop c, by rw [h, hc]; rfl, hphase⟩
  have hreg : Registered (r.log ++ [.registered n]) n :=
    ⟨r.log, [], rfl, by simp, hphase.lookedOpen⟩
  refine hi'.advance (.inr (.inl rfl)) rfl rfl rfl rfl rfl rfl hc' ?_ ?_ ?_
  · intro id tool k hid
    rw [hw.log]
    have hins : ((r.removePending c.call.approvalId).pending.insert c.call.approvalId
        (c.call.tool, n))[id]? = some (tool, k) := hid
    rw [Std.ExtTreeMap.getElem?_insert] at hins
    split at hins
    · obtain ⟨-, rfl⟩ : c.call.tool = tool ∧ n = k := by simpa using hins
      exact .inr hreg
    · exact .inl hins
  · rw [hw.log]
    exact hphase.lookedOpen
  · rw [hw.log, hw.roots]
    exact hcc.mono (List.prefix_append _ _)

theorem Inv.ask (hi : Inv p r) (hc : r.calls n = some c) (hreg : c.phase = .registered)
    (delivered : Bool) : Inv p (r.ask n c delivered) := by
  have hphase := hi.phase n c hc
  simp only [PhaseInv, hreg] at hphase
  have hw := withdrawn_tell r delivered
    (.approvalRequested c.call.approvalId c.call.tool c.call.input)
  refine (hi.withdrawn hw).setPhase fun c' hc' ↦ ?_
  have hcc : c' = c := by
    unfold RunApprovals.tell at hc'
    split at hc' <;> exact Option.some.inj (hc'.symm.trans hc)
  rw [hw.roots, hw.log, hcc]
  cases delivered <;> exact hphase

/-- A call that waits and takes an answer was judged before, and the answer is on record. -/
theorem Inv.wake (hi : Inv p r) (hc : r.calls n = some c) (hwait : c.phase = .waiting) :
    Inv p (r.wake n c) := by
  have hphase := hi.phase n c hc
  simp only [PhaseInv, hwait] at hphase
  unfold RunApprovals.wake
  split
  · next reply hreply =>
    refine hi.setPhase fun c' hc' ↦ ?_
    obtain rfl : c' = c := Option.some.inj (hc'.symm.trans hc)
    intro hallow
    have hans : ∃ d, d ≠ .deny ∧ c'.answer = .sent d := by
      unfold RunApprovals.replyTo at hreply
      split at hreply
      · cases hreply
      · simp [← Option.some.inj hreply] at hallow
      · next h => exact ⟨_, by simp, h⟩
      · next h => exact ⟨_, by simp, h⟩
      · simp [← Option.some.inj hreply] at hallow
    obtain ⟨d, hd, hsent⟩ := hans
    obtain ⟨tool, htool⟩ := hi.answer n c' d hc hsent
    obtain ⟨m, uuid, seen, hm, harr, hcall, hopen, hpol, -, hv⟩ := id hphase
    obtain ⟨hopen', hment, hgated⟩ := of_verdict_eq_none hv
    refine ⟨⟨c'.payload, uuid, m, (List.prefix_append _ _).trans hm, harr, hopen ▸ hopen', ?_,
      .inr ⟨hpol ▸ hgated, .inr ⟨tool, d, hd, htool⟩⟩⟩, hphase.lookedOpen⟩
    rw [← hcall]
    exact namesRoot_of_mentions _ hment
  · exact hi

theorem Inv.expire (hi : Inv p r) (hc : r.calls n = some c) (hwait : c.phase = .waiting) :
    Inv p (r.expire n c) := by
  have hphase := hi.phase n c hc
  simp only [PhaseInv, hwait] at hphase
  unfold RunApprovals.expire
  split
  · refine hi.setPhase fun c' hc' ↦ ?_
    obtain rfl : c' = c := Option.some.inj (hc'.symm.trans hc)
    exact hphase
  · exact hi

theorem Inv.withdraw (hi : Inv p r) (hc : r.calls n = some c) : Inv p (r.withdraw n c) := by
  have hphase := hi.phase n c hc
  have hw := withdrawn_removePending r c.call.approvalId
  have hcc : ∀ c', (r.removePending c.call.approvalId).calls n = some c' →
      c'.payload = c.payload ∧ c'.call = c.call := by
    intro c' hc'
    rcases hw.calls n with h | h
    · rw [hc', hc] at h
      rw [Option.some.inj h]
      exact ⟨rfl, rfl⟩
    · rw [hc', hc] at h
      rw [Option.some.inj h]
      exact ⟨rfl, rfl⟩
  unfold RunApprovals.withdraw
  split
  · refine (hi.withdrawn hw).setPhase fun c' _ ↦ ?_
    simp [PhaseInv]
  · next hexp =>
    simp only [PhaseInv, hexp] at hphase
    refine (hi.withdrawn hw).setPhase fun c' hc' ↦ ?_
    obtain ⟨hpay, hcl⟩ := hcc c' hc'
    simp only [PhaseInv, Judged, hpay, hcl, hw.roots, hw.log] at hphase ⊢
    exact hphase
  · exact hi

theorem Inv.tellNext (hi : Inv p r) (hc : r.calls n = some c) (delivered : Bool) :
    Inv p (r.tellNext n c delivered) := by
  have hphase := hi.phase n c hc
  unfold RunApprovals.tellNext
  split
  · next e rest htell =>
    simp only [PhaseInv, htell] at hphase
    have hw := withdrawn_tell r delivered e
    refine (hi.withdrawn hw).setPhase fun c' hc' ↦ ?_
    have hcc : c' = c := by
      unfold RunApprovals.tell at hc'
      split at hc' <;> exact Option.some.inj (hc'.symm.trans hc)
    rw [hw.roots, hw.log, hcc]
    exact hphase
  · refine hi.setPhase fun c' _ ↦ ?_
    simp [PhaseInv]
  · exact hi

theorem Inv.reply {v : Value} (hi : Inv p r) (hc : r.calls n = some c)
    (hv : c.phase = .replying v) : Inv p (r.reply n v) := by
  have hphase := hi.phase n c hc
  simp only [PhaseInv, hv] at hphase
  exact hi.advance (.inr (.inr ⟨_, rfl⟩)) rfl rfl rfl rfl rfl rfl hc (fun _ _ _ h ↦ .inl h) hphase
    trivial

theorem Inv.go (hi : Inv p r) (hc : r.calls n = some c) (delivered late : Bool) :
    Inv p (r.go n c delivered late) := by
  unfold RunApprovals.go
  split
  · next h => exact hi.look hc h
  · next h => exact hi.register hc h
  · next h => exact hi.ask hc h delivered
  · next h =>
    split
    · exact hi.expire hc h
    · exact hi.wake hc h
  · exact hi.withdraw hc
  · exact hi.withdraw hc
  · exact hi.tellNext hc delivered
  · next h => exact hi.reply hc h
  · exact hi

/-- One step keeps the invariant. -/
theorem Inv.step (hi : Inv p r) (label : Label) : Inv p (r.step label) := by
  cases label with
  | setPolicy p' => exact hi.setPolicy p'
  | openTurn => exact hi.openTurn
  | shut => exact hi.shut
  | cancelAll accepted => exact hi.cancelAll accepted
  | answer id decision => exact hi.answering id decision
  | arrive n payload uuid => exact hi.arrive n payload uuid
  | go n delivered late =>
    simp only [RunApprovals.step]
    split
    · next c hc => exact hi.go hc delivered late
    · exact hi

/-- **The invariant holds in every run.** -/
theorem inv_runs (roots : List String) (p : Policy) (labels : List Label) :
    Inv p (RunApprovals.runs roots p labels) :=
  (StepSystem.reachable_foldl labels).invariant (fun _ hs ↦ hs ▸ inv_new roots p)
    fun _ l _ _ hi hl ↦ hl ▸ hi.step l

/-- What would let call `n` through if agy's own folder did not count and an answer counted only
while a turn is open and the policy still `Gated`. -/
def StrictlyCleared (roots : List String) (p : Policy) (h : List Happening) (n : ℕ) : Prop :=
  ∃ payload uuid m, m <+: h ∧ .arrived n payload uuid ∈ m ∧ turnOpen m = true ∧
    (∀ s, HasString s (HookCall.fromPayload payload uuid).input → ¬ NamesRoot roots s) ∧
    (readsInside (workspaces payload) (.fromPayload payload uuid) = true ∨
      policyAt p m = .gated ∧
        (AllowedAlways m (HookCall.fromPayload payload uuid).tool ∨ AnsweredAllow m n))

/-- The gate one might expect: strictly cleared calls only, and nothing pending and no call answered
allow between a close and the next open. -/
structure StrictGate (p : Policy) (r : RunApprovals) : Prop where
  allowed : Throughout (fun pre e ↦ ∀ n, e = .replied n true → StrictlyCleared r.roots p pre n) r.log
  empty : turnOver r.log = true → r.pending.isEmpty
  quiet : Throughout (fun pre e ↦ ∀ n, e = .replied n true → turnOver pre = false) r.log

/-- A payload as agy sends it. -/
def samplePayload (tool : String) (step : ℤ) (args : Value) : Value :=
  .obj [("conversationId", .str "c"), ("stepIdx", .int step),
    ("toolCall", .obj [("name", .str tool), ("args", args)]),
    ("workspacePaths", .arr [.str "/work"]),
    ("artifactDirectoryPath", .str "/home/agy/brain/c")]

/-- A sub-agent reads its parent's transcript in agy's own folder. -/
def brainRead : Value :=
  samplePayload "view_file" 1 (.obj [("AbsolutePath", .str "/home/agy/brain/p/log")])

/-- A command, for which the user is asked. -/
def listFiles : Value := samplePayload "run_command" 3 (.obj [("CommandLine", .str "ls")])

/-- A turn opens and call 0 makes its first steps. -/
def opening (payload : Value) : List Label :=
  [.openTurn, .arrive 0 payload "", .go 0 true false]

/-- The turn is closed. -/
def closing : List Label := [.shut, .cancelAll fun _ ↦ true]

end Ember.Server.Antigravity
