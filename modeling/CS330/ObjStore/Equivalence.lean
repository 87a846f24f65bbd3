import CS330.ObjStore.Lemmas.Builds
import CS330.ObjStore.Ownership

/-!
This module contains that the cached and the uncached build answer alike: over one mount, whatever calls
are made, both return the same values and fill the same buffers.
-/

namespace ObjStore

open View

variable {env env' : Env} {w w' : World}

theorem objstoreRead_alike (hr : env.Reliable) (hr' : env'.Reliable) (h : w.Alike env env' w')
    (objid : Int) (buf : Mem) (size offset : Nat)
    : Loop.Rel (fun a b => a.1 = b.1 ∧ a.2.1 = b.2.1 ∧ a.2.2.Alike env env' b.2.2)
        (objstoreRead env objid buf size offset w) (objstoreRead env' objid buf size offset w') := by
  have hrel := objstoreRead_rel hr hr' h.left h.right objid buf size offset (by
    intro o _
    rw [h.view_eq]
    exact SameContents.refl o _)
  generalize objstoreRead env objid buf size offset w = x at hrel ⊢
  generalize objstoreRead env' objid buf size offset w' = y at hrel ⊢
  cases hrel with
  | ok hab =>
    obtain ⟨h1, h2, h3, h4⟩ := hab
    exact .ok ⟨h1, h2, h.map id h3.view_eq h4.view_eq h3.tagged h4.tagged⟩
  | error e => exact .error e

theorem Op.exec_alike (hr : env.Reliable) (hr' : env'.Reliable) (h : w.Alike env env' w') (op : Op)
    : Loop.Rel (fun a b => a.1 = b.1 ∧ a.2.Alike env env' b.2) (op.exec env w) (op.exec env' w') := by
  cases op with
  | create key =>
    apply Loop.Rel.bind (createObject_alike h key)
    rintro ⟨r, u⟩ ⟨r', u'⟩ ⟨h1, h2⟩
    simp only at h1 h2
    subst h1
    exact .ok ⟨rfl, h2⟩
  | find key =>
    refine .ok ⟨?_, h⟩
    simp only [findObjectId, findObject_alike h key]
  | rename key newname =>
    obtain ⟨h1, h2⟩ := renameObject_alike h key newname
    refine .ok ⟨?_, h2⟩
    simp only [h1]
  | destroy key =>
    apply Loop.Rel.bind (destroyObject_alike hr hr' h key)
    rintro ⟨r, u⟩ ⟨r', u'⟩ ⟨h1, h2⟩
    simp only at h1 h2
    subst h1
    exact .ok ⟨rfl, h2⟩
  | write objid buf size offset =>
    apply Loop.Rel.bind (objstoreWrite_alike hr hr' h objid buf size offset)
    rintro ⟨r, u⟩ ⟨r', u'⟩ ⟨h1, h2⟩
    simp only at h1 h2
    subst h1
    exact .ok ⟨rfl, h2⟩
  | read objid buf size offset =>
    apply Loop.Rel.bind (objstoreRead_alike hr hr' h objid buf size offset)
    rintro ⟨r, buf, u⟩ ⟨r', buf', u'⟩ ⟨h1, h2, h3⟩
    simp only at h1 h2 h3
    subst h1 h2
    exact .ok ⟨rfl, h3⟩

theorem replies_alike (hr : env.Reliable) (hr' : env'.Reliable) (ops : List Op)
    (h : w.Alike env env' w')
    : replies env ops w = replies env' ops w' := by
  induction ops generalizing w w' with
  | nil => rfl
  | cons op ops ih =>
    have hrel := op.exec_alike hr hr' h
    unfold replies
    generalize op.exec env w = x at hrel ⊢
    generalize op.exec env' w' = y at hrel ⊢
    cases hrel with
    | error e => rfl
    | @ok a b hab =>
      obtain ⟨h1, h2⟩ := hab
      simp only [h1, ih h2]

theorem World.Mounted.alike {u : World} (h : u.Mounted w) (h' : u.Mounted w') : w.Alike env env' w' where
  view_eq := by
    rw [h.view_eq, h'.view_eq]
  left := h.tagged
  right := h'.tagged

/--
The build with the cache and the one without it, on the same disk: `objstore_init` succeeds in both, and
call by call the replies are the same. No condition on the disk or on the calls is needed.
-/
theorem builds_agree {cached uncached : Env} (hc : cached.Reliable) (hu : uncached.Reliable)
    (disk : BlockNo → Block) (ops : List Op)
    : ∃ (w w' : World),
        objstoreInit cached (World.ofDisk disk) = .ok (0, w)
        ∧ objstoreInit uncached (World.ofDisk disk) = .ok (0, w')
        ∧ replies cached ops w = replies uncached ops w' := by
  obtain ⟨w, hmount, hmounted⟩ := objstoreInit_spec hc (World.ofDisk disk)
  obtain ⟨w', hmount', hmounted'⟩ := objstoreInit_spec hu (World.ofDisk disk)
  exact ⟨w, w', hmount, hmount', replies_alike hc hu ops (hmounted.alike hmounted')⟩

theorem builds_agree_steady
    : ∃ (w w' : World),
        objstoreInit (steady true) (World.ofDisk blankDisk) = .ok (0, w)
        ∧ objstoreInit (steady false) (World.ofDisk blankDisk) = .ok (0, w')
        ∧ replies (steady true) [.create keyA, .write 2 (fun _ => 1#8) 5000 0, .find keyA] w
          = replies (steady false) [.create keyA, .write 2 (fun _ => 1#8) 5000 0, .find keyA] w' :=
  builds_agree (steady_reliable true) (steady_reliable false) blankDisk _

end ObjStore
