import Ember.Server.Computers.Mounts
import Mathlib.Data.List.Nodup
import Mathlib.Data.List.Pairwise

/-!
# What the table of project mounts keeps

Three things carry the results about `ProjectMounts`.

* The disk: a directory that `create_dir` made can be removed again as long as nothing was put into
  it, so creating directories and removing them, the last one first, leaves the disk as it was
  (`removeDirs_createDirs`). Everything else only removes directories (`Disk.Less`).
* The users: leaving the other mounts is one map and one filter over the entries
  (`entries_leaveOthers`).
* The roots: no operation but a successful `acquire` adds an entry, and that one looked first whether
  a mount covers the root or lies under it.
-/

namespace Ember.Server.Computers

open FileTree

/-! ### The disk -/

namespace Disk

variable {k k' : Disk} {d : Dir}

/-- A disk with no more directories than before, and still a file system. -/
def Less (k k' : Disk) : Prop := (∀ d ∈ k'.dirs, d ∈ k.dirs) ∧ (k.Closed → k'.Closed)

theorem Less.refl (k : Disk) : k.Less k := ⟨fun _ h ↦ h, id⟩

theorem Less.trans {k'' : Disk} (h : k.Less k') (h' : k'.Less k'') : k.Less k'' :=
  ⟨fun d hd ↦ h.1 d (h'.1 d hd), fun hk ↦ h'.2 (h.2 hk)⟩

theorem Dir.parent_ne (d : Dir) : d.parent ≠ some d := by
  intro h
  unfold Dir.parent at h
  split at h
  · cases h
  · next hlen =>
    have := congrArg List.length (Option.some.inj h)
    rw [List.length_dropLast] at this
    omega

theorem isEmpty_iff : k.isEmpty d = true ↔ ∀ e ∈ k.dirs ++ k.files, e.parent ≠ some d := by
  simp only [isEmpty, List.all_eq_true, bne_iff_ne]

theorem less_removeDir (k : Disk) (d : Dir) : k.Less (k.removeDir d) := by
  unfold removeDir
  split
  case isTrue h =>
    simp only [Bool.and_eq_true, Bool.not_eq_true', List.contains_eq_mem,
      decide_eq_true_eq, decide_eq_false_iff_not] at h
    obtain ⟨⟨-, hmounted⟩, hempty⟩ := h
    refine ⟨fun e he ↦ List.mem_of_mem_erase he, fun hk ↦ ⟨fun e he p hp ↦ ?_, fun m hm ↦ ?_,
      hk.nodup.erase d⟩⟩
    · have he' : e ∈ k.dirs ++ k.files :=
        (List.mem_append.1 he).elim (fun h ↦ List.mem_append_left _ (List.mem_of_mem_erase h))
          (List.mem_append_right _)
      refine (List.mem_erase_of_ne ?_).2 (hk.parent e he' p hp)
      rintro rfl
      exact isEmpty_iff.1 hempty e he' hp
    · refine (List.mem_erase_of_ne ?_).2 (hk.mounted m hm)
      rintro rfl
      exact hmounted hm
  case isFalse => exact .refl k

theorem less_removeDirs (k : Disk) (created : List Dir) : k.Less (k.removeDirs created) := by
  unfold removeDirs
  induction created.reverse generalizing k with
  | nil => exact .refl k
  | cons d ds ih => exact (less_removeDir k d).trans (ih _)

theorem less_mounted {mounted : List Dir} (h : ∀ d ∈ mounted, d ∈ k.mounted) :
    k.Less { k with mounted } :=
  ⟨fun _ hd ↦ hd, fun hk ↦ ⟨hk.parent, fun d hd ↦ hk.mounted d (h d hd), hk.nodup⟩⟩

theorem Closed.createDir (hk : k.Closed) (hnew : k.present d = false)
    (hparent : d.parent.any k.dirs.contains = true) : (k.createDir d).Closed where
  parent e he p hp := by
    rw [Disk.createDir, List.append_assoc, List.mem_append, List.mem_append] at he
    rcases he with he | he | he
    · exact List.mem_append_left _ (hk.parent e (List.mem_append_left _ he) p hp)
    · obtain rfl := List.mem_singleton.1 he
      rw [Option.mem_def.1 hp] at hparent
      exact List.mem_append_left _ (by simpa using hparent)
    · exact List.mem_append_left _ (hk.parent e (List.mem_append_right _ he) p hp)
  mounted m hm := List.mem_append_left _ (hk.mounted m hm)
  nodup := by
    refine List.nodup_append.2 ⟨hk.nodup, List.nodup_cons.2 ⟨List.not_mem_nil, List.nodup_nil⟩, fun a ha b hb ↦ ?_⟩
    obtain rfl := List.mem_singleton.1 hb
    rintro rfl
    simp [present, ha] at hnew

/-- A directory just made is empty and nothing is mounted on it, so it goes away again. -/
theorem removeDir_createDir (hk : k.Closed) (hnew : k.present d = false) :
    (k.createDir d).removeDir d = k := by
  have hdir : d ∉ k.dirs := fun h ↦ by simp [present, h] at hnew
  have hmounted : d ∉ k.mounted := fun h ↦ hdir (hk.mounted d h)
  have hempty : (k.createDir d).isEmpty d = true := by
    refine isEmpty_iff.2 fun e he ↦ ?_
    rw [createDir, List.append_assoc, List.mem_append, List.mem_append] at he
    rcases he with he | he | he
    · exact fun hp ↦ hdir (hk.parent e (List.mem_append_left _ he) d hp)
    · obtain rfl := List.mem_singleton.1 he
      exact Dir.parent_ne e
    · exact fun hp ↦ hdir (hk.parent e (List.mem_append_right _ he) d hp)
  have herase : (k.dirs ++ [d]).erase d = k.dirs := by
    rw [List.erase_append_right _ hdir, List.erase_cons_head, List.append_nil]
  rw [removeDir, hempty, createDir]
  simp [hmounted, herase]

theorem removeDirs_cons (k : Disk) (d : Dir) (created : List Dir) :
    k.removeDirs (d :: created) = (k.removeDirs created).removeDir d := by
  rw [removeDirs, List.reverse_cons, List.foldl_append]
  rfl

end Disk

/-- **Directories just made can be removed again.** -/
theorem removeDirs_createDirs (o : Outside) {k : Disk} (hk : k.Closed) (created dirs : List Dir) :
    (createDirs o k created dirs).1.Closed ∧
      ∃ new, (createDirs o k created dirs).2.1 = created ++ new ∧
        (createDirs o k created dirs).1.removeDirs new = k := by
  induction dirs generalizing k created with
  | nil => exact ⟨hk, [], (List.append_nil _).symm, rfl⟩
  | cons d dirs ih =>
    unfold createDirs
    split
    · exact ih hk created
    · next hnew =>
      split
      · exact ⟨hk, [], (List.append_nil _).symm, rfl⟩
      · next hparent =>
        split
        · exact ⟨hk, [], (List.append_nil _).symm, rfl⟩
        · have hd : (k.createDir d).Closed := hk.createDir (by simpa using hnew) (by simpa using hparent)
          obtain ⟨hclosed, new, hnewdirs, hundo⟩ := ih hd (created ++ [d])
          refine ⟨hclosed, d :: new, by rw [hnewdirs]; simp, ?_⟩
          rw [Disk.removeDirs_cons, hundo, Disk.removeDir_createDir hk (by simpa using hnew)]

/-! ### Leaving mounts -/

variable {o : Outside} {w : ProjectMounts} {sessionId : String} {keep : Dir}

namespace ProjectMounts

/-- The index lists the mounts with their file systems. -/
def Indexed (w : ProjectMounts) : Prop := w.index.Perm (w.entries.map fun e ↦ (e.root, e.fs))

/-- What taking mounts away does: the entries left, the index, the disk. -/
structure Left (w w' : ProjectMounts) (entries : List Entry) : Prop where
  entries : w'.entries = entries
  index : w.Indexed → w'.Indexed
  disk : w.disk.Less w'.disk

theorem left_unmountEntry (o : Outside) (w : ProjectMounts) (path : Dir) :
    w.Left (w.unmountEntry o path) (w.entries.filter fun e ↦ e.root != path) := by
  unfold unmountEntry
  split
  case h_1 hnone =>
    have hall : ∀ e ∈ w.entries, (e.root != path) = true := by
      simpa [List.find?_eq_none] using hnone
    exact ⟨(List.filter_eq_self.2 hall).symm, id, .refl _⟩
  case h_2 e hsome =>
    refine ⟨rfl, fun _ ↦ List.Perm.refl _, ?_⟩
    refine Disk.Less.trans (Disk.less_mounted fun d hd ↦ ?_) (Disk.less_removeDirs _ _)
    split at hd
    · exact List.mem_of_mem_erase hd
    · exact hd

theorem left_foldl_unmountEntry (o : Outside) (w : ProjectMounts) (left : List Entry) :
    w.Left (left.foldl (fun w e ↦ w.unmountEntry o e.root) w)
      (w.entries.filter fun e ↦ !(left.map Entry.root).contains e.root) := by
  induction left generalizing w with
  | nil => exact ⟨by simp, id, .refl _⟩
  | cons e left ih =>
    have h₁ := left_unmountEntry o w e.root
    have h₂ := ih (w.unmountEntry o e.root)
    refine ⟨?_, fun hi ↦ h₂.index (h₁.index hi), h₁.disk.trans h₂.disk⟩
    rw [List.foldl_cons, h₂.entries, h₁.entries, List.filter_filter]
    refine List.filter_congr fun x _ ↦ ?_
    by_cases hx : x.root = e.root <;> simp [hx]

end ProjectMounts

/-- Neither root lies under the other. -/
def Entry.Apart (a b : Entry) : Prop := ¬ a.root <+: b.root ∧ ¬ b.root <+: a.root

instance : Std.Symm Entry.Apart := ⟨fun _ _ h ↦ ⟨h.2, h.1⟩⟩

@[simp] theorem Entry.leave_root (e : Entry) : (e.leave sessionId keep).root = e.root := by
  unfold leave
  split <;> rfl

@[simp] theorem Entry.leave_fs (e : Entry) : (e.leave sessionId keep).fs = e.fs := by
  unfold leave
  split <;> rfl

@[simp] theorem Entry.join_root (e : Entry) : (e.join sessionId keep).root = e.root := by
  unfold join
  split <;> rfl

@[simp] theorem Entry.join_fs (e : Entry) : (e.join sessionId keep).fs = e.fs := by
  unfold join
  split <;> rfl

variable {u : String} {e : Entry}

theorem Entry.mem_leave (h : u ∈ (e.leave sessionId keep).users) :
    u ∈ e.users := by
  unfold leave at h
  split at h
  · exact h
  · exact List.mem_of_mem_erase h

theorem Entry.nodup_leave (h : e.users.Nodup) :
    (e.leave sessionId keep).users.Nodup := by
  unfold leave
  split
  · exact h
  · exact h.erase sessionId

variable {settings : MountSettings} {computer : Computer} {root : Dir}
  {r : ProjectMounts × Except MountError (List Dir)} {entries : List Entry} {disk : Disk}
  {w' : ProjectMounts}

namespace ProjectMounts

/-! ### What the table keeps -/

/-- What every operation keeps. -/
structure Sound (w : ProjectMounts) : Prop where
  /-- The mount roots are pairwise not nested. -/
  apart : w.entries.Pairwise Entry.Apart
  used : ∀ e ∈ w.entries, e.users ≠ []
  nodup : ∀ e ∈ w.entries, e.users.Nodup
  single : ∀ a ∈ w.entries, ∀ b ∈ w.entries, ∀ u ∈ a.users, u ∈ b.users → a = b
  index : w.Indexed
  disk : w.disk.Closed

/-- Entries one of whose roots lies under the other's are one. -/
theorem eq_of_overlap (h : entries.Pairwise Entry.Apart) {a b : Entry} (ha : a ∈ entries)
    (hb : b ∈ entries) (hab : a.root <+: b.root) : a = b := by
  by_contra hne
  exact (h.forall ha hb hne).1 hab

variable (sessionId keep) in
/-- **Leaving the other mounts**: every entry but the one kept loses the user, and what is left
without users goes. -/
theorem entries_leaveOthers (hapart : w.entries.Pairwise Entry.Apart)
    (hused : ∀ e ∈ w.entries, e.users ≠ []) :
    w.Left (w.leaveOthers o sessionId keep)
      ((w.entries.map (Entry.leave sessionId keep)).filter fun e ↦ !e.users.isEmpty) := by
  have hleft := left_foldl_unmountEntry o
    { w with entries := w.entries.map (Entry.leave sessionId keep) }
    (w.entries.filter fun e ↦
      e.root != keep && e.users.contains sessionId && (e.without sessionId).users.isEmpty)
  refine ⟨hleft.entries.trans ?_, fun hi ↦ hleft.index ?_, hleft.disk⟩
  · refine List.filter_congr fun x hx ↦ ?_
    obtain ⟨e, he, rfl⟩ := List.mem_map.1 hx
    rw [Entry.leave_root]
    congr 1
    rw [Bool.eq_iff_iff]
    simp only [List.contains_iff_mem, List.mem_map, List.mem_filter, Bool.and_eq_true, bne_iff_ne]
    constructor
    · rintro ⟨d, ⟨hd, ⟨hkeep, -⟩, hempty⟩, hroot⟩
      obtain rfl := eq_of_overlap hapart hd he (hroot ▸ List.prefix_refl _)
      rw [Entry.leave, if_neg hkeep]
      exact hempty
    · intro hempty
      by_cases hkeep : e.root = keep
      · rw [Entry.leave, if_pos hkeep, List.isEmpty_iff] at hempty
        exact absurd hempty (hused e he)
      · rw [Entry.leave, if_neg hkeep] at hempty
        refine ⟨e, ⟨he, ⟨hkeep, ?_⟩, hempty⟩, rfl⟩
        by_contra hmem
        rw [Entry.without, List.erase_of_not_mem hmem, List.isEmpty_iff] at hempty
        exact hused e he hempty
  · refine hi.trans ?_
    simp [Function.comp_def]

/-- Changing entries in place and dropping some keeps the table sound. -/
theorem Sound.map {w : ProjectMounts} (h : w.Sound) {f : Entry → Entry} {p : Entry → Bool}
    (hleft : w.Left w' ((w.entries.map f).filter p)) (hroot : ∀ e, (f e).root = e.root)
    (hused : ∀ e ∈ w.entries, p (f e) = true → (f e).users ≠ [])
    (hnodup : ∀ e ∈ w.entries, (f e).users.Nodup)
    (hsingle : ∀ a ∈ w.entries, ∀ b ∈ w.entries, ∀ u ∈ (f a).users, u ∈ (f b).users → a = b) :
    w'.Sound := by
  have hmem : ∀ x ∈ w'.entries, ∃ e ∈ w.entries, f e = x ∧ p x = true := by
    intro x hx
    rw [hleft.entries, List.mem_filter] at hx
    obtain ⟨e, he, rfl⟩ := List.mem_map.1 hx.1
    exact ⟨e, he, rfl, hx.2⟩
  refine ⟨?_, fun x hx ↦ ?_, fun x hx ↦ ?_, fun x hx y hy u hux huy ↦ ?_, hleft.index h.index,
    hleft.disk.2 h.disk⟩
  · rw [hleft.entries]
    refine List.Pairwise.filter _ (List.pairwise_map.2 (h.apart.imp fun hab ↦ ?_))
    rwa [Entry.Apart, hroot, hroot]
  · obtain ⟨e, he, rfl, hp⟩ := hmem x hx
    exact hused e he hp
  · obtain ⟨e, he, rfl, -⟩ := hmem x hx
    exact hnodup e he
  · obtain ⟨a, ha, rfl, -⟩ := hmem x hx
    obtain ⟨b, hb, rfl, -⟩ := hmem y hy
    rw [hsingle a ha b hb u hux huy]

theorem Sound.leaveOthers (h : w.Sound) (o : Outside) (sessionId : String) (keep : Dir) :
    (w.leaveOthers o sessionId keep).Sound :=
  h.map (entries_leaveOthers _ _ h.apart h.used) (fun _ ↦ Entry.leave_root _)
    (fun _ _ hp ↦ by simpa using hp) (fun e he ↦ Entry.nodup_leave (h.nodup e he))
    fun a ha b hb u hua hub ↦ h.single a ha b hb u (Entry.mem_leave hua) (Entry.mem_leave hub)

/-! ### Acquiring a mount -/

/-- What `prepare_mount_point` comes to: the directories it created can be removed again, and a
failure leaves none behind. -/
inductive Prepared (w : ProjectMounts) : ProjectMounts × Except MountError (List Dir) → Prop
  | failed (disk : Disk) (e : MountError) (he : e.isRefusal = false) (h : w.disk.Less disk) :
      Prepared w ({ w with disk }, .error e)
  | ready (disk : Disk) (created : List Dir) (hclosed : disk.Closed)
      (h : w.disk.Less (disk.removeDirs created)) : Prepared w ({ w with disk }, .ok created)

theorem prepared_makeMountPoint (h : w.disk.Closed) (root : Dir) (dirs : List Dir) :
    w.Prepared (w.makeMountPoint o root dirs) := by
  obtain ⟨hclosed, new, hnew, hundo⟩ := removeDirs_createDirs o h [] dirs
  rw [List.nil_append] at hnew
  unfold makeMountPoint
  split
  case h_1 disk created heq =>
    rw [heq] at hclosed hnew hundo
    obtain rfl : created = new := hnew
    exact .ready disk created hclosed (hundo ▸ .refl _)
  case h_2 disk created e heq =>
    rw [heq] at hclosed hnew hundo
    obtain rfl : created = new := hnew
    exact .failed _ _ rfl (hundo ▸ .refl _)

theorem prepared_prepareAgain (h : w.disk.Closed) (root : Dir) :
    w.Prepared (w.prepareAgain settings o root) := by
  unfold prepareAgain
  split
  · exact .failed _ _ rfl (.refl _)
  · split
    · exact .failed _ _ rfl (.refl _)
    · exact .failed _ _ rfl (.refl _)
    · exact .ready _ [] h (.refl _)
    · exact prepared_makeMountPoint h root _

theorem Prepared.of_disk (h : Prepared { w with disk } r)
    (hless : w.disk.Less disk) : w.Prepared r := by
  cases h with
  | failed k e he h => exact .failed k e he (hless.trans h)
  | ready k created hclosed h => exact .ready k created hclosed (hless.trans h)

theorem prepared_prepareMountPoint (h : w.disk.Closed) (root : Dir) :
    w.Prepared (w.prepareMountPoint settings o root) := by
  unfold prepareMountPoint
  split
  · exact .failed _ _ rfl (.refl _)
  · split
    · exact .failed _ _ rfl (.refl _)
    · exact .ready _ [] h (.refl _)
    · exact prepared_makeMountPoint h root _
    · split
      · exact .failed _ _ rfl (.refl _)
      · -- a mount was removed: the disk has no more directories than before
        have hless : w.disk.Less { w.disk with
            mounted := if o.forced then w.disk.mounted.erase root else w.disk.mounted } :=
          Disk.less_mounted fun d hd ↦ by
            split at hd
            · exact List.mem_of_mem_erase hd
            · exact hd
        exact (prepared_prepareAgain (hless.2 h) root).of_disk hless

/-- What a failed `acquire` leaves: the entries as they were, but that the session may have left its
other mounts, and no new directory. -/
structure Refused (w w' : ProjectMounts) (sessionId : String) : Prop where
  old : ∀ e' ∈ w'.entries, ∃ e ∈ w.entries, e' = e ∨ e' = e.without sessionId
  kept : ∀ e ∈ w.entries, (∃ u ∈ e.users, u ≠ sessionId) →
    e ∈ w'.entries ∨ e.without sessionId ∈ w'.entries
  dirs : ∀ d ∈ w'.disk.dirs, d ∈ w.disk.dirs

/-- What a successful `acquire` leaves: the root under exactly one mount, of the computer, which the
session uses. -/
def Served (w : ProjectMounts) (sessionId : String) (computer : Computer) (root : Dir) : Prop :=
  ∃ e, w.entries.filter (Entry.covers · root) = [e] ∧ e.computerId = computer.id ∧
    sessionId ∈ e.users

theorem Refused.refl (w : ProjectMounts) (sessionId : String) : w.Refused w sessionId :=
  ⟨fun e he ↦ ⟨e, he, .inl rfl⟩, fun _ he _ ↦ .inl he, fun _ h ↦ h⟩

theorem leave_eq (e : Entry) : e.leave sessionId keep = e ∨ e.leave sessionId keep =
    e.without sessionId := by
  unfold Entry.leave
  split
  · exact .inl rfl
  · exact .inr rfl

/-- A session that left its other mounts and got no new one. -/
theorem Left.refused {w : ProjectMounts}
    (h : w.Left w' ((w.entries.map (Entry.leave sessionId keep)).filter fun e ↦ !e.users.isEmpty))
    (hdisk : w'.disk.Less disk) : w.Refused { w' with disk } sessionId where
  old x hx := by
    have hx : x ∈ w'.entries := hx
    rw [h.entries, List.mem_filter] at hx
    obtain ⟨e, he, rfl⟩ := List.mem_map.1 hx.1
    exact ⟨e, he, leave_eq e⟩
  kept e he hother := by
    obtain ⟨u, hu, hne⟩ := hother
    have huser : u ∈ (e.leave sessionId keep).users := by
      rcases leave_eq e with heq | heq <;> rw [heq]
      · exact hu
      · exact (List.mem_erase_of_ne hne).2 hu
    have hmem : e.leave sessionId keep ∈ w'.entries := by
      rw [h.entries]
      refine List.mem_filter.2 ⟨List.mem_map_of_mem he, ?_⟩
      simpa using List.ne_nil_of_mem huser
    rcases leave_eq e with heq | heq <;> rw [heq] at hmem
    · exact .inl hmem
    · exact .inr hmem
  dirs d hd := h.disk.1 d (hdisk.1 d hd)

/-- Where no two roots are nested, at most one covers a path. -/
theorem filter_covers (h : entries.Pairwise Entry.Apart) (he : e ∈ entries)
    (hcovers : e.covers root = true) :
    entries.filter (Entry.covers · root) = [e] := by
  have hcov : ∀ x ∈ entries.filter (Entry.covers · root), x = e := fun x hx ↦ by
    obtain ⟨hx, hxc⟩ := List.mem_filter.1 hx
    have hxr : x.root <+: root := List.isPrefixOf_iff_prefix.1 hxc
    have her : e.root <+: root := List.isPrefixOf_iff_prefix.1 hcovers
    rcases List.prefix_or_prefix_of_prefix hxr her with hxe | hex
    · exact eq_of_overlap h hx he hxe
    · exact (eq_of_overlap h he hx hex).symm
  have hpair := h.filter (Entry.covers · root)
  have hmem : e ∈ entries.filter (Entry.covers · root) := List.mem_filter.2 ⟨he, hcovers⟩
  cases hl : entries.filter (Entry.covers · root) with
  | nil => simp [hl] at hmem
  | cons x rest =>
    rw [hl] at hcov hpair
    obtain rfl := hcov x List.mem_cons_self
    cases rest with
    | nil => rfl
    | cons y rest =>
      obtain rfl := hcov y (List.mem_cons_of_mem _ List.mem_cons_self)
      have hself := (List.pairwise_cons.1 hpair).1 y List.mem_cons_self
      exact absurd (List.prefix_refl _) hself.1

/-- The new entry of a successful `acquire`. -/
theorem Sound.insertEntry (h : w.Sound) (sessionId : String) (computer : Computer)
    (created : List Dir) (hapart : ∀ e ∈ w.entries, ¬ e.root <+: root ∧ ¬ root <+: e.root)
    (hsession : ∀ e ∈ w.entries, sessionId ∉ e.users) (hdisk : disk.Closed) :
    (w.insertEntry sessionId computer root created disk).Sound ∧
      (w.insertEntry sessionId computer root created disk).Served sessionId computer root := by
  let new : Entry := ⟨root, computer.id, computer.name, w.next, [sessionId], created, none⟩
  have hentries : (w.insertEntry sessionId computer root created disk).entries =
      w.entries ++ [new] := rfl
  have hcases : ∀ e ∈ w.entries ++ [new], e ∈ w.entries ∨ e = new := fun e he ↦ by
    simpa using he
  refine ⟨⟨?_, fun e he ↦ ?_, fun e he ↦ ?_, fun a ha b hb u hua hub ↦ ?_, List.Perm.refl _, hdisk⟩,
    new, ?_, rfl, List.mem_singleton_self _⟩
  · rw [hentries, List.pairwise_append]
    refine ⟨h.apart, List.pairwise_singleton .., fun a ha b hb ↦ ?_⟩
    obtain rfl := List.mem_singleton.1 hb
    exact hapart a ha
  · rcases hcases e he with he | rfl
    · exact h.used e he
    · exact List.cons_ne_nil _ _
  · rcases hcases e he with he | rfl
    · exact h.nodup e he
    · exact List.nodup_cons.2 ⟨List.not_mem_nil, List.nodup_nil⟩
  · rcases hcases a ha with ha' | rfl <;> rcases hcases b hb with hb' | rfl
    · exact h.single a ha' b hb' u hua hub
    · exact absurd (List.mem_singleton.1 hub ▸ hua) (hsession a ha')
    · exact absurd (List.mem_singleton.1 hua ▸ hub) (hsession b hb')
    · rfl
  · have hold : w.entries.filter (Entry.covers · root) = [] := by
      refine List.filter_eq_nil_iff.2 fun e he hc ↦ ?_
      exact (hapart e he).1 (List.isPrefixOf_iff_prefix.1 hc)
    have hnew : new.covers root = true := List.isPrefixOf_iff_prefix.2 (List.prefix_refl _)
    rw [hentries, List.filter_append, hold, List.nil_append, List.filter_cons, if_pos hnew,
      List.filter_nil]

/-- What `acquire` comes to. -/
structure Acquires (w : ProjectMounts) (sessionId : String) (computer : Computer) (root : Dir)
    (r : ProjectMounts × Except MountError Unit) : Prop where
  sound : r.1.Sound
  served : r.2 = .ok () → r.1.Served sessionId computer root
  refused : ∀ e, r.2 = .error e → w.Refused r.1 sessionId ∧ (e.isRefusal = true → r.1 = w)

/-- A failure of the node, of the mount point or of the mount. -/
theorem Acquires.of_error {e : MountError} (hsound : w'.Sound) (h : w.Refused w' sessionId)
    (he : e.isRefusal = false) :
    w.Acquires sessionId computer root (w', .error e) := by
  refine ⟨hsound, (fun hok ↦ by cases hok), fun e' herr ↦ ⟨h, fun he' ↦ ?_⟩⟩
  obtain rfl := Except.error.inj herr
  rw [he] at he'
  cases he'

/-- A failure of the first checks. -/
theorem Sound.refuse (h : w.Sound) (sessionId : String) (computer : Computer) (root : Dir)
    (e : MountError) : w.Acquires sessionId computer root (w, .error e) :=
  ⟨h, (fun hok ↦ by cases hok), fun _ _ ↦ ⟨.refl .., fun _ ↦ rfl⟩⟩

theorem isRefusal_askNode {e : MountError}
    (h : askNode o computer root = some e) : e.isRefusal = false := by
  unfold askNode at h
  split at h
  · obtain rfl := Option.some.inj h
    rfl
  · split at h <;> cases h <;> rfl

theorem Sound.of_disk (h : w.Sound) (hdisk : disk.Closed) :
    Sound { w with disk } :=
  ⟨h.apart, h.used, h.nodup, h.single, h.index, hdisk⟩

/-- **A new mount**, where none covers the root or lies under it. -/
theorem Sound.acquireNew (h : w.Sound)
    (hapart : ∀ e ∈ w.entries, ¬ e.root <+: root ∧ ¬ root <+: e.root) :
    w.Acquires sessionId computer root (w.acquireNew settings o sessionId computer root) := by
  have hleft := entries_leaveOthers (o := o) sessionId root h.apart h.used
  have hsound := h.leaveOthers o sessionId root
  unfold ProjectMounts.acquireNew
  generalize w.leaveOthers o sessionId root = v at hleft hsound
  dsimp only
  split
  case h_1 e hask => exact .of_error hsound (hleft.refused (.refl _)) (isRefusal_askNode hask)
  case h_2 =>
    -- the roots are those there were, and the session is in none of them any more
    have hroots : ∀ x ∈ v.entries, ∃ e ∈ w.entries, e.leave sessionId root = x := fun x hx ↦ by
      rw [hleft.entries, List.mem_filter] at hx
      exact List.mem_map.1 hx.1
    have hvapart : ∀ x ∈ v.entries, ¬ x.root <+: root ∧ ¬ root <+: x.root := fun x hx ↦ by
      obtain ⟨e, he, rfl⟩ := hroots x hx
      rw [Entry.leave_root]
      exact hapart e he
    have hvsession : ∀ x ∈ v.entries, sessionId ∉ x.users := fun x hx ↦ by
      obtain ⟨e, he, rfl⟩ := hroots x hx
      have hne : e.root ≠ root := fun heq ↦ (hapart e he).1 (heq ▸ List.prefix_refl _)
      rw [Entry.leave, if_neg hne]
      exact (h.nodup e he).not_mem_erase
    have hprep : v.Prepared (v.prepareMountPoint settings o root) :=
      prepared_prepareMountPoint hsound.disk root
    cases hprep' : v.prepareMountPoint settings o root with
    | mk v' r =>
      rw [hprep'] at hprep
      cases hprep with
      | failed disk e he hless =>
        exact .of_error (hsound.of_disk (hless.2 hsound.disk)) (hleft.refused hless) he
      | ready disk created hclosed hless =>
        dsimp only
        split
        case h_1 k hmount =>
          have hk : k.Closed := by
            unfold mountAt at hmount
            split at hmount
            case isTrue hdir =>
              split at hmount
              case h_2 => cases hmount
              obtain rfl := Except.ok.inj hmount
              refine ⟨hclosed.parent, fun d hd ↦ ?_, hclosed.nodup⟩
              rcases List.mem_append.1 hd with hd | hd
              · exact hclosed.mounted d hd
              · obtain rfl := List.mem_singleton.1 hd
                simpa using hdir
            case isFalse => cases hmount
          have hnew := (hsound.of_disk hclosed).insertEntry sessionId computer
            created hvapart hvsession hk
          exact ⟨hnew.1, fun _ ↦ hnew.2, fun _ herr ↦ by cases herr⟩
        case h_2 =>
          exact .of_error (hsound.of_disk (hless.2 hsound.disk)) (hleft.refused hless) rfl

theorem Sound.join_apart (h : w.Sound) (sessionId : String) (at_ : Dir) :
    (w.entries.map (Entry.join sessionId at_)).Pairwise Entry.Apart :=
  List.pairwise_map.2 (h.apart.imp fun hab ↦ by rwa [Entry.Apart, Entry.join_root, Entry.join_root])

theorem Sound.join_used (h : w.Sound) (sessionId : String) (at_ : Dir) :
    ∀ e ∈ w.entries.map (Entry.join sessionId at_), e.users ≠ [] := by
  intro x hx
  obtain ⟨y, hy, rfl⟩ := List.mem_map.1 hx
  unfold Entry.join
  split
  · exact List.ne_nil_of_mem List.mem_insert_self
  · exact h.used y hy

/-- **Sharing a mount** that covers the root. -/
theorem Sound.share (h : w.Sound) (he : e ∈ w.entries) (hcovers : e.covers root = true)
    (hid : e.computerId = computer.id) :
    w.Acquires sessionId computer root
      (({ w with entries := w.entries.map (Entry.join sessionId e.root) } : ProjectMounts).leaveOthers
        o sessionId e.root, .ok ()) := by
  let f (x : Entry) : Entry := (x.join sessionId e.root).leave sessionId e.root
  have hroot : ∀ x, (f x).root = x.root := fun x ↦ by simp [f]
  have husers : ∀ x ∈ w.entries, ∀ u, u ∈ (f x).users →
      u ∈ x.users ∧ (u = sessionId → x = e) ∨ u = sessionId ∧ x = e := fun x hx u hu ↦ by
    by_cases hxe : x.root = e.root
    · obtain rfl := eq_of_overlap h.apart hx he (hxe ▸ List.prefix_refl _)
      have hu : u ∈ x.users.insert sessionId := by
        simpa [f, Entry.join, Entry.leave] using hu
      rcases List.mem_insert_iff.1 hu with rfl | hu
      · exact .inr ⟨rfl, rfl⟩
      · exact .inl ⟨hu, fun _ ↦ rfl⟩
    · have hu : u ∈ x.users.erase sessionId := by
        simpa [f, Entry.join, Entry.leave, hxe, Entry.without] using hu
      refine .inl ⟨List.mem_of_mem_erase hu, fun heq ↦ ?_⟩
      exact absurd (heq ▸ hu) (h.nodup x hx).not_mem_erase
  have hleft := entries_leaveOthers (o := o) sessionId e.root
    (w := { w with entries := w.entries.map (Entry.join sessionId e.root) }) (h.join_apart _ _)
    (h.join_used _ _)
  have hleft' : w.Left _ ((w.entries.map f).filter fun x ↦ !x.users.isEmpty) :=
    ⟨by rw [hleft.entries, List.map_map]; rfl,
      fun hi ↦ hleft.index (hi.trans (by simp [Function.comp_def])), hleft.disk⟩
  have hnodup : ∀ x ∈ w.entries, (f x).users.Nodup := fun x hx ↦ by
    refine Entry.nodup_leave ?_
    unfold Entry.join
    split
    · exact (h.nodup x hx).insert
    · exact h.nodup x hx
  have hsound : (({ w with entries := w.entries.map (Entry.join sessionId e.root) } :
      ProjectMounts).leaveOthers o sessionId e.root).Sound := by
    refine h.map hleft' hroot (fun _ _ hp ↦ by simpa using hp) hnodup
      fun a ha b hb u hua hub ↦ ?_
    rcases husers a ha u hua with ⟨hua, haself⟩ | ⟨rfl, rfl⟩
    · rcases husers b hb u hub with ⟨hub, -⟩ | ⟨rfl, rfl⟩
      · exact h.single a ha b hb u hua hub
      · exact haself rfl
    · rcases husers b hb u hub with ⟨-, hbself⟩ | ⟨-, rfl⟩
      · exact (hbself rfl).symm
      · rfl
  refine ⟨hsound, fun _ ↦ ⟨f e, filter_covers hsound.apart ?_ ?_, ?_, ?_⟩, fun _ herr ↦ by cases herr⟩
  · rw [hleft'.entries]
    refine List.mem_filter.2 ⟨List.mem_map_of_mem he, ?_⟩
    simpa [f, Entry.join, Entry.leave] using
      List.ne_nil_of_mem (List.mem_insert_self (a := sessionId) (l := e.users))
  · rw [Entry.covers, hroot]
    exact hcovers
  · simpa [f, Entry.join, Entry.leave] using hid
  · simp [f, Entry.join, Entry.leave]

/-- **`acquire`.** -/
theorem Sound.acquire (h : w.Sound) (settings : MountSettings) (o : Outside) (sessionId : String)
    (computer : Computer) (path : Path String) :
    w.Acquires sessionId computer path.components
      (w.acquire settings o sessionId computer path) := by
  unfold ProjectMounts.acquire
  dsimp only
  split
  case isTrue => exact h.refuse ..
  case isFalse =>
    split
    case h_1 e hfind =>
      split
      case isTrue => exact h.refuse ..
      case isFalse hid =>
        have hcovers : e.covers path.components = true := by simpa using List.find?_some hfind
        exact h.share (List.mem_of_find?_eq_some hfind) hcovers (by simpa using hid)
    case h_2 hcover =>
      split
      case h_1 => exact h.refuse ..
      case h_2 hinner =>
        refine h.acquireNew fun e he ↦ ⟨fun hp ↦ ?_, fun hp ↦ ?_⟩
        · exact List.find?_eq_none.1 hcover e he (List.isPrefixOf_iff_prefix.2 hp)
        · exact List.find?_eq_none.1 hinner e he (List.isPrefixOf_iff_prefix.2 hp)

/-! ### The other operations -/

theorem sweepEntry_root (settings : MountSettings) (isLive : String → Bool) (now : Instant)
    (e : Entry) : (sweepEntry settings isLive now e).1.root = e.root ∧
      (sweepEntry settings isLive now e).1.fs = e.fs ∧
      (sweepEntry settings isLive now e).1.users = e.users := by
  unfold sweepEntry
  split <;> exact ⟨rfl, rfl, rfl⟩

theorem Sound.sweep (h : w.Sound) (settings : MountSettings) (o : Outside)
    (isLive : String → Bool) (now : Instant) : (w.sweep settings o isLive now).Sound := by
  let f (e : Entry) : Entry := (sweepEntry settings isLive now e).1
  have husers : ∀ e, (f e).users = e.users := fun e ↦ (sweepEntry_root settings isLive now e).2.2
  have hleft := left_foldl_unmountEntry o
    { w with entries := (w.entries.map (sweepEntry settings isLive now)).map Prod.fst }
    (((w.entries.map (sweepEntry settings isLive now)).filter Prod.snd).map Prod.fst)
  have hmap : (w.entries.map (sweepEntry settings isLive now)).map Prod.fst = w.entries.map f := by
    rw [List.map_map]
    rfl
  have hleft' : w.Left (w.sweep settings o isLive now) ((w.entries.map f).filter fun e ↦
      !((((w.entries.map (sweepEntry settings isLive now)).filter Prod.snd).map Prod.fst).map
        Entry.root).contains e.root) := by
    refine ⟨hleft.entries.trans (by rw [hmap]), fun hi ↦ hleft.index ?_, hleft.disk⟩
    refine hi.trans (List.Perm.of_eq ?_)
    rw [hmap, List.map_map]
    refine List.map_congr_left fun e _ ↦ ?_
    obtain ⟨hroot, hfs, -⟩ := sweepEntry_root settings isLive now e
    exact Prod.ext hroot.symm hfs.symm
  refine h.map hleft' (fun e ↦ (sweepEntry_root settings isLive now e).1)
    (fun e he _ ↦ ?_) (fun e he ↦ ?_) fun a ha b hb u hua hub ↦ ?_
  · rw [husers]
    exact h.used e he
  · rw [husers]
    exact h.nodup e he
  · rw [husers] at hua hub
    exact h.single a ha b hb u hua hub

theorem Sound.shutdown (h : w.Sound) (o : Outside) : (w.shutdown o).Sound := by
  have hleft : w.Left (w.shutdown o) ((w.entries.map id).filter fun e ↦
      !(w.entries.map Entry.root).contains e.root) := by
    rw [List.map_id]
    exact left_foldl_unmountEntry o w w.entries
  exact h.map hleft (fun _ ↦ rfl) (fun e he _ ↦ h.used e he) h.nodup h.single

theorem Sound.rehash (h : w.Sound) (hp : entries.Perm w.entries) :
    Sound { w with entries } where
  apart := hp.symm.pairwise h.apart fun hab ↦ ⟨hab.2, hab.1⟩
  used e he := h.used e (hp.mem_iff.1 he)
  nodup e he := h.nodup e (hp.mem_iff.1 he)
  single a ha b hb := h.single a (hp.mem_iff.1 ha) b (hp.mem_iff.1 hb)
  index := h.index.trans (hp.symm.map _)
  disk := h.disk

/-- **The step lemma.** -/
theorem Sound.step (h : w.Sound) {a : MountAction}
    (henabled : w.Enabled a) : (w.step settings a).Sound := by
  cases a with
  | acquire o sessionId computer path => exact (h.acquire settings o sessionId computer path).sound
  | release o sessionId => exact h.leaveOthers o sessionId []
  | sweep o isLive now => exact h.sweep settings o isLive now
  | shutdown o => exact h.shutdown o
  | rehash entries => exact h.rehash henabled
  | disk disk => exact h.of_disk henabled

theorem sound_of_reachable (h : (system settings).Reachable w) :
    w.Sound := by
  refine h.invariant (fun w hw ↦ ?_) fun w a w' _ hs hstep ↦ ?_
  · obtain ⟨hentries, hindex, hdisk⟩ := hw
    refine ⟨?_, ?_, ?_, ?_, ?_, hdisk⟩ <;> simp [hentries, hindex, Indexed]
  · obtain ⟨henabled, rfl⟩ := hstep
    exact hs.step henabled

/-- **The table of mounts.** Between operations the roots are pairwise not nested, every mount has a
user, no session uses two, and the index lists the mounts. An `acquire` that succeeds leaves its root
under exactly one mount, of its computer and used by its session; one that fails adds no mount, takes
nobody but its own session out of one, and leaves no directory behind. -/
theorem mounts_of_reachable {settings : MountSettings} (h : (system settings).Reachable w) :
    w.Sound ∧ ∀ o sessionId computer path, w.Acquires sessionId computer path.components
      (w.acquire settings o sessionId computer path) :=
  ⟨sound_of_reachable h, (sound_of_reachable h).acquire settings⟩

/-! ### The other sessions -/

/-- A session uses a mount of the computer at this root. -/
def UsesAt (w : ProjectMounts) (u computerId : String) (root : Dir) : Prop :=
  ∃ e ∈ w.entries, e.root = root ∧ e.computerId = computerId ∧ u ∈ e.users

/-- A session has all the mounts it had. -/
def Keeps (u : String) (w w' : ProjectMounts) : Prop :=
  ∀ computerId root, w.UsesAt u computerId root → w'.UsesAt u computerId root

theorem Keeps.trans {w w'' : ProjectMounts} (h : Keeps u w w')
    (h' : Keeps u w' w'') : Keeps u w w'' :=
  fun computerId root huses ↦ h' computerId root (h computerId root huses)

theorem keeps_of_mem {w : ProjectMounts} (f : Entry → Entry) (hroot : ∀ e, (f e).root = e.root)
    (hid : ∀ e, (f e).computerId = e.computerId)
    (h : ∀ e ∈ w.entries, u ∈ e.users → f e ∈ w'.entries ∧ u ∈ (f e).users) : Keeps u w w' := by
  rintro computerId root ⟨e, he, rfl, rfl, hu⟩
  obtain ⟨hmem, huser⟩ := h e he hu
  exact ⟨f e, hmem, hroot e, hid e, huser⟩

theorem keeps_of_subset {w : ProjectMounts} (h : ∀ e ∈ w.entries, e ∈ w'.entries) : Keeps u w w' :=
  keeps_of_mem id (fun _ ↦ rfl) (fun _ ↦ rfl) fun e he hu ↦ ⟨h e he, hu⟩

theorem Entry.leave_computerId (e : Entry) :
    (e.leave sessionId keep).computerId = e.computerId := by
  unfold Entry.leave
  split <;> rfl

theorem Entry.join_computerId (e : Entry) :
    (e.join sessionId keep).computerId = e.computerId := by
  unfold Entry.join
  split <;> rfl

theorem Entry.mem_leave_of_ne (hu : u ∈ e.users) (hne : u ≠ sessionId) :
    u ∈ (e.leave sessionId keep).users := by
  obtain heq | heq : e.leave sessionId keep = e ∨ e.leave sessionId keep = e.without sessionId :=
    leave_eq e
  all_goals rw [heq]
  · exact hu
  · exact (List.mem_erase_of_ne hne).2 hu

theorem Entry.mem_join (hu : u ∈ e.users) :
    u ∈ (e.join sessionId keep).users := by
  unfold Entry.join
  split
  · exact List.mem_insert_of_mem hu
  · exact hu

/-- A session that leaves its mounts takes nobody with it. -/
theorem keeps_leaveOthers (hapart : w.entries.Pairwise Entry.Apart)
    (hused : ∀ e ∈ w.entries, e.users ≠ []) (hne : u ≠ sessionId) :
    Keeps u w (w.leaveOthers o sessionId keep) := by
  refine keeps_of_mem (Entry.leave sessionId keep) (fun _ ↦ Entry.leave_root _)
    Entry.leave_computerId fun e he hu ↦ ?_
  have huser : u ∈ (e.leave sessionId keep).users := Entry.mem_leave_of_ne hu hne
  rw [(entries_leaveOthers _ _ hapart hused).entries]
  refine ⟨List.mem_filter.2 ⟨List.mem_map_of_mem he, ?_⟩, huser⟩
  simpa using List.ne_nil_of_mem huser

theorem Prepared.keeps (h : w.Prepared r) : Keeps u w r.1 := by
  cases h with
  | failed disk e he hless => exact keeps_of_subset fun _ he ↦ he
  | ready disk created hclosed hless => exact keeps_of_subset fun _ he ↦ he

theorem Sound.keeps_acquireNew (h : w.Sound) (hne : u ≠ sessionId) :
    Keeps u w (w.acquireNew settings o sessionId computer root).1 := by
  have hkeeps : Keeps u w (w.leaveOthers o sessionId root) :=
    keeps_leaveOthers h.apart h.used hne
  have hsound := h.leaveOthers o sessionId root
  unfold ProjectMounts.acquireNew
  generalize w.leaveOthers o sessionId root = v at hkeeps hsound
  dsimp only
  split
  case h_1 => exact hkeeps
  case h_2 =>
    have hprepared : v.Prepared (v.prepareMountPoint settings o root) :=
      prepared_prepareMountPoint hsound.disk root
    have hprep := hkeeps.trans hprepared.keeps
    split
    case h_1 v' e heq =>
      rw [heq] at hprep
      exact hprep
    case h_2 v' created heq =>
      rw [heq] at hprep
      split
      case h_1 k hmount =>
        exact hprep.trans (keeps_of_subset fun e he ↦ List.mem_append_left _ he)
      case h_2 => exact hprep.trans (keeps_of_subset fun e he ↦ he)

/-- **`acquire`** takes no mount from another session. -/
theorem Sound.keeps_acquire (h : w.Sound) {path : Path String} (hne : u ≠ sessionId) :
    Keeps u w (w.acquire settings o sessionId computer path).1 := by
  unfold ProjectMounts.acquire
  dsimp only
  split
  case isTrue => exact keeps_of_subset fun e he ↦ he
  case isFalse =>
    split
    case h_1 e hfind =>
      split
      case isTrue => exact keeps_of_subset fun e he ↦ he
      case isFalse =>
        have hjoin : Keeps u w { w with entries := w.entries.map (Entry.join sessionId e.root) } :=
          keeps_of_mem (Entry.join sessionId e.root) (fun _ ↦ Entry.join_root _)
            Entry.join_computerId fun x hx hu ↦ ⟨List.mem_map_of_mem hx, Entry.mem_join hu⟩
        exact hjoin.trans (keeps_leaveOthers (h.join_apart _ _) (h.join_used _ _) hne)
    case h_2 =>
      split
      · exact keeps_of_subset fun e he ↦ he
      · exact h.keeps_acquireNew hne

/-- **A sweep** takes no mount from a session that is live. -/
theorem Sound.keeps_sweep (h : w.Sound) {isLive : String → Bool} {now : Instant}
    (hlive : ∀ e ∈ w.entries, u ∈ e.users → e.users.any isLive = true) :
    Keeps u w (w.sweep settings o isLive now) := by
  refine keeps_of_mem (fun e ↦ (sweepEntry settings isLive now e).1)
    (fun e ↦ (sweepEntry_root settings isLive now e).1) (fun e ↦ ?_) fun e he hu ↦ ?_
  · dsimp only [sweepEntry]
    split <;> rfl
  · have hleft := left_foldl_unmountEntry o
      { w with entries := (w.entries.map (sweepEntry settings isLive now)).map Prod.fst }
      (((w.entries.map (sweepEntry settings isLive now)).filter Prod.snd).map Prod.fst)
    refine ⟨?_, (sweepEntry_root settings isLive now e).2.2 ▸ hu⟩
    rw [ProjectMounts.sweep, hleft.entries]
    refine List.mem_filter.2 ⟨List.mem_map_of_mem (List.mem_map_of_mem he), ?_⟩
    simp only [Bool.not_eq_true', ← Bool.not_eq_true, List.contains_iff_mem]
    intro hexpired
    obtain ⟨x, hx, hroot⟩ := List.mem_map.1 hexpired
    obtain ⟨p, hp, rfl⟩ := List.mem_map.1 hx
    obtain ⟨hp, hgone⟩ := List.mem_filter.1 hp
    obtain ⟨d, hd, rfl⟩ := List.mem_map.1 hp
    rw [(sweepEntry_root settings isLive now d).1, (sweepEntry_root settings isLive now e).1] at hroot
    obtain rfl := eq_of_overlap h.apart hd he (hroot ▸ List.prefix_refl _)
    simp [sweepEntry, hlive d he hu] at hgone

/-! ### A session that moves on and fails -/

/-- Everything succeeds. -/
def calm : Outside :=
  ⟨.ok (), .ok .dir, none, none, fun _ ↦ true, fun _ ↦ none, .ok (), true, .ok (), fun _ ↦ true⟩

/-- The computer cannot be reached. -/
def cutOff : Outside := { calm with connect := .error "connection refused" }

/-- A disk with nothing but its top directory. -/
def bareDisk : Disk := ⟨[[.rootDir]], [], []⟩

/-- Two sessions share the mount of one project. -/
def sharing : List MountAction :=
  [.acquire calm "s" ⟨"pi", "Pi"⟩ (Path.ofString "/p"),
    .acquire calm "t" ⟨"pi", "Pi"⟩ (Path.ofString "/p/sub")]

/-- No mounts, on that disk. -/
def unused : ProjectMounts := ⟨[], [], bareDisk, 0⟩

theorem bareDisk_closed : bareDisk.Closed :=
  ⟨by decide, by decide, by decide⟩

theorem reachable_sharing (settings : MountSettings) :
    (system settings).Reachable (sharing.foldl (step settings) unused) := by
  have h₀ : (system settings).Reachable unused := .start ⟨rfl, rfl, bareDisk_closed⟩
  have h₁ := h₀.next (MountAction.acquire calm "s" ⟨"pi", "Pi"⟩ (Path.ofString "/p")) ⟨trivial, rfl⟩
  exact h₁.next (MountAction.acquire calm "t" ⟨"pi", "Pi"⟩ (Path.ofString "/p/sub")) ⟨trivial, rfl⟩

/-- Two sessions in one project, then a third that wants the directory above it. -/
theorem mounts_of_reachable_sharing :
    ∃ w, (system ⟨false, 0⟩).Reachable w ∧
      (w.entries.map fun e ↦ (e.root, e.users)) =
        [([.rootDir, .normal "p"], ["t", "s"])] ∧
      (w.acquire ⟨false, 0⟩ calm "u" ⟨"pi", "Pi"⟩ (Path.ofString "/")).1 = w ∧
      w.Sound ∧ ∀ o sessionId computer path, w.Acquires sessionId computer path.components
        (w.acquire ⟨false, 0⟩ o sessionId computer path) :=
  ⟨_, reachable_sharing _, by decide +kernel, by rfl, mounts_of_reachable (reachable_sharing _)⟩

/-- A session that asks for another directory has left its mount before it is known whether the new
one can be had. -/
theorem not_untouched_after_failure :
    ¬ ∀ settings w, (system settings).Reachable w →
      ∀ o sessionId computer path e, (w.acquire settings o sessionId computer path).2 = .error e →
        ∀ m ∈ w.entries, (∃ u ∈ m.users, u ≠ sessionId) →
          m ∈ (w.acquire settings o sessionId computer path).1.entries := by
  intro hall
  have hfail := hall ⟨false, 0⟩ _ (reachable_sharing _) cutOff "s" ⟨"pi", "Pi"⟩
    (Path.ofString "/q") (.unreachable "Pi" "connection refused") (by rfl)
  have hgone := hfail ⟨[.rootDir, .normal "p"], "pi", "Pi", 0, ["t", "s"],
    [[.rootDir, .normal "p"]], none⟩ (by decide +kernel) ⟨"t", by decide, by decide⟩
  exact absurd hgone (by decide +kernel)

end ProjectMounts

end Ember.Server.Computers
