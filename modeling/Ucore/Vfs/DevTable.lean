import Ucore.Errno

/-!
# The table of devices

`kern/fs/vfs/vfsdev.c`: devices and file systems are added to `vdev_list` by name, file systems are
mounted on devices and unmounted, and `vfs_get_root` looks a name up. What `kmalloc`, `strdup`,
`mountfunc` and the routines of a file system answer is an input of the call; a routine that fails
an assertion or follows a null pointer has no result.

One thinks of the table as a map from names to devices (`Devices`), and `Call.spec` says what a call
does to that map. `Table.devices` reads the map off the list. The invariant `Table.Wf` has what the
list needs for this: no name twice, the chunks of the devices and of their names all different, no
other chunk in use, and an inode in every device that can be mounted on. Each call does to the table
what its specification does to the map and keeps the invariant (`Call.exec_spec`), so that a run
refines a run on the map, and a routine that fails has given back the memory it took
(`devTable_refines`).
-/

namespace Ucore

namespace VfsDevs

/-! ## The routines -/

/-- How a routine fails: with `-E_TOO_BIG`, or with another code. -/
inductive DevError
  | tooBig
  | errno (e : Errno)
  deriving DecidableEq, Repr

def fsMaxDnameLen : ℕ := 31

/-- The fields of `vfs_dev_t` but the name; inodes and file systems are addresses. -/
structure Entry where
  devnode : Option ℕ
  fs : Option ℕ
  mountable : Bool
  deriving DecidableEq

/-- `vfs_dev_t`, with the chunks that it and its name are in. -/
structure Vdev extends Entry where
  addr : ℕ
  nameAddr : ℕ
  devname : List UInt8
  deriving DecidableEq

/-- `vdev_list`, and the chunks that `kmalloc` has given to this module. -/
structure Table where
  vdevList : List Vdev
  live : Finset ℕ

/-- After `vfs_devlist_init`. -/
def Table.init : Table := ⟨[], ∅⟩

/-- What a routine answers: 0, an error, or 0 with an inode. -/
inductive Answer
  | ok
  | error (e : DevError)
  | node (found : ℕ)
  deriving DecidableEq

section Routines

variable (s : Table)

def Table.kfree (a : ℕ) : Table := { s with live := s.live.erase a }

/-- `kmalloc` that answers `a`. -/
def Table.kmalloc (a : ℕ) : Table := { s with live := insert a s.live }

/-- `vfs_do_add`; `name` and `vdev` are the answers of `strdup` and `kmalloc`. There is no result
when an assertion fails. -/
def vfsDoAdd (devname : List UInt8) (e : Entry) (name vdev : Option ℕ) : Option (Table × Answer) :=
  if e.devnode = none ∧ e.mountable = true then none
  else if fsMaxDnameLen < devname.length then some (s, .error .tooBig)
  else
    match name with
    | none => some (s, .error (.errno .noMem))
    | some n =>
      let s := s.kmalloc n
      match vdev with
      | none => some (s.kfree n, .error (.errno .noMem))
      | some v =>
        let s := s.kmalloc v
        -- `check_devname_conflict`
        if s.vdevList.any (fun w ↦ w.devname = devname) then
          some ((s.kfree v).kfree n, .error (.errno .exists))
        else
          some ({ s with vdevList := ⟨e, v, n, devname⟩ :: s.vdevList }, .ok)

def findMount (devname : List UInt8) : Option Vdev :=
  s.vdevList.find? fun v ↦ v.mountable ∧ v.devname = devname

/-- A store to the field `fs` of the device at `addr`. -/
def Table.setFs (addr : ℕ) (fs : Option ℕ) : Table :=
  { s with vdevList := s.vdevList.map fun v ↦ if v.addr = addr then { v with fs := fs } else v }

/-- `vfs_mount`; `mountfunc` makes the file system of a device, and stores nothing when it fails. -/
def vfsMount (devname : List UInt8) (mountfunc : ℕ → Except Errno (Option ℕ)) :
    Option (Table × Answer) :=
  match findMount s devname with
  | none => some (s, .error (.errno .noDev))
  | some vdev =>
    match vdev.fs with
    | some _ => some (s, .error (.errno .busy))
    | none => vdev.devnode.bind fun node ↦
      match mountfunc node with
      | .error e => some (s, .error (.errno e))
      -- the assertion behind the call
      | .ok none => none
      | .ok (some fs) => some (s.setFs vdev.addr (some fs), .ok)

/-- `fsop_sync` and then `fsop_unmount`. -/
def syncUnmount (fsopSync fsopUnmount : ℕ → Option Errno) (fs : ℕ) : Option Errno :=
  match fsopSync fs with
  | some e => some e
  | none => fsopUnmount fs

def vfsUnmount (devname : List UInt8) (fsopSync fsopUnmount : ℕ → Option Errno) :
    Table × Answer :=
  match findMount s devname with
  | none => (s, .error (.errno .noDev))
  | some vdev =>
    match vdev.fs with
    | none => (s, .error (.errno .inval))
    | some fs =>
      match syncUnmount fsopSync fsopUnmount fs with
      | some e => (s, .error (.errno e))
      | none => (s.setFs vdev.addr none, .ok)

/-- The body of the loop of `vfs_unmount_all`. -/
def Entry.unmount (fsopSync fsopUnmount : ℕ → Option Errno) (e : Entry) : Entry :=
  match e.fs with
  | none => e
  | some fs =>
    if e.mountable = true ∧ syncUnmount fsopSync fsopUnmount fs = none then { e with fs := none }
    else e

def vfsUnmountAll (fsopSync fsopUnmount : ℕ → Option Errno) : Table × Answer :=
  ({ s with vdevList := s.vdevList.map fun v ↦
      { v with toEntry := v.toEntry.unmount fsopSync fsopUnmount } }, .ok)

/-- What `vfs_get_root` does with the device it has found; there is no result when it takes a
reference to a null pointer. -/
def Entry.root (fsopGetRoot : ℕ → Option ℕ) (e : Entry) : Option Answer :=
  match e.fs with
  | some fs => some ((fsopGetRoot fs).elim (.error (.errno .naDev)) .node)
  | none => if e.mountable then some (.error (.errno .naDev)) else e.devnode.map .node

def vfsGetRoot (devname : List UInt8) (fsopGetRoot : ℕ → Option ℕ) : Option (Table × Answer) :=
  match s.vdevList.find? fun v ↦ v.devname = devname with
  | none => some (s, .error (.errno .noDev))
  | some vdev => (vdev.root fsopGetRoot).map fun r ↦ (s, r)

end Routines

/-- A call. -/
inductive Call
  | add (devname : List UInt8) (e : Entry) (name vdev : Option ℕ)
  | mount (devname : List UInt8) (mountfunc : ℕ → Except Errno (Option ℕ))
  | unmount (devname : List UInt8) (fsopSync fsopUnmount : ℕ → Option Errno)
  | unmountAll (fsopSync fsopUnmount : ℕ → Option Errno)
  | getRoot (devname : List UInt8) (fsopGetRoot : ℕ → Option ℕ)

/-- The routine of a call. -/
def Call.exec (s : Table) : Call → Option (Table × Answer)
  | .add devname e name vdev => vfsDoAdd s devname e name vdev
  | .mount devname mountfunc => vfsMount s devname mountfunc
  | .unmount devname fsopSync fsopUnmount => some (vfsUnmount s devname fsopSync fsopUnmount)
  | .unmountAll fsopSync fsopUnmount => some (vfsUnmountAll s fsopSync fsopUnmount)
  | .getRoot devname fsopGetRoot => vfsGetRoot s devname fsopGetRoot

def vfsAddFs (devname : List UInt8) (fs : Option ℕ) (name vdev : Option ℕ) : Call :=
  .add devname ⟨none, fs, false⟩ name vdev

def vfsAddDev (devname : List UInt8) (devnode : Option ℕ) (mountable : Bool)
    (name vdev : Option ℕ) : Call :=
  .add devname ⟨devnode, none, mountable⟩ name vdev

/-- `kmalloc` gives out chunks that are not in use. -/
def Call.Fresh (s : Table) : Call → Prop
  | .add _ _ name vdev => (∀ n ∈ name, n ∉ s.live) ∧ (∀ v ∈ vdev, v ∉ s.live ∧ v ∉ name)
  | _ => True

/-- Calls that return, with their answers. -/
inductive Run : Table → List (Call × Answer) → Table → Prop
  | refl (s : Table) : Run s [] s
  | head {s t u : Table} {c : Call} {a : Answer} {l : List (Call × Answer)} (hfresh : c.Fresh s)
    (hexec : c.exec s = some (t, a)) (h : Run t l u) : Run s ((c, a) :: l) u

/-! ## A map from names to devices -/

/-- The table as one thinks of it. -/
abbrev Devices := List UInt8 → Option Entry

section Spec

variable (m : Devices)

/-- Adding a device that is not there. -/
def Devices.add (devname : List UInt8) (e : Entry) (granted : Bool) : Option (Devices × Answer) :=
  if e.devnode = none ∧ e.mountable = true then none
  else if fsMaxDnameLen < devname.length then some (m, .error .tooBig)
  else if granted = false then some (m, .error (.errno .noMem))
  else if (m devname).isSome then some (m, .error (.errno .exists))
  else some (Function.update m devname (some e), .ok)

/-- Mounting on a device that can be mounted on. -/
def Devices.mount (devname : List UInt8) (mountfunc : ℕ → Except Errno (Option ℕ)) :
    Option (Devices × Answer) :=
  match (m devname).filter Entry.mountable with
  | none => some (m, .error (.errno .noDev))
  | some e =>
    match e.fs with
    | some _ => some (m, .error (.errno .busy))
    | none => e.devnode.bind fun node ↦
      match mountfunc node with
      | .error err => some (m, .error (.errno err))
      | .ok none => none
      | .ok (some fs) => some (Function.update m devname (some { e with fs := some fs }), .ok)

/-- Unmounting. -/
def Devices.unmount (devname : List UInt8) (fsopSync fsopUnmount : ℕ → Option Errno) :
    Devices × Answer :=
  match (m devname).filter Entry.mountable with
  | none => (m, .error (.errno .noDev))
  | some e =>
    match e.fs with
    | none => (m, .error (.errno .inval))
    | some fs =>
      match syncUnmount fsopSync fsopUnmount fs with
      | some err => (m, .error (.errno err))
      | none => (Function.update m devname (some { e with fs := none }), .ok)

/-- What a call does to the map. -/
def Call.spec : Call → Option (Devices × Answer)
  | .add devname e name vdev => m.add devname e (name.isSome && vdev.isSome)
  | .mount devname mountfunc => m.mount devname mountfunc
  | .unmount devname fsopSync fsopUnmount => some (m.unmount devname fsopSync fsopUnmount)
  | .unmountAll fsopSync fsopUnmount =>
    some (fun devname ↦ (m devname).map (Entry.unmount fsopSync fsopUnmount), .ok)
  | .getRoot devname fsopGetRoot =>
    match m devname with
    | none => some (m, .error (.errno .noDev))
    | some e => (e.root fsopGetRoot).map fun r ↦ (m, r)

end Spec

/-- Calls on the map, with their answers. -/
inductive SpecRun : Devices → List (Call × Answer) → Devices → Prop
  | refl (m : Devices) : SpecRun m [] m
  | head {m m' m'' : Devices} {c : Call} {a : Answer} {l : List (Call × Answer)}
    (hspec : c.spec m = some (m', a)) (h : SpecRun m' l m'') : SpecRun m ((c, a) :: l) m''

/-- The map that a table stands for. -/
def Table.devices (s : Table) : Devices := fun devname ↦
  (s.vdevList.find? fun v ↦ v.devname = devname).map Vdev.toEntry

/-! ## The table is such a map -/

/-- The chunks of the devices and of their names. -/
def chunks (l : List Vdev) : List ℕ := l.flatMap fun v ↦ [v.addr, v.nameAddr]

/-- Every name is there once, the chunks are different ones, and no other chunk is in use. -/
structure Table.Wf (s : Table) : Prop where
  names : (s.vdevList.map Vdev.devname).Nodup
  nodup : (chunks s.vdevList).Nodup
  live : s.live = (chunks s.vdevList).toFinset
  node : ∀ v ∈ s.vdevList, v.mountable = true → v.devnode ≠ none

section Lookup

variable {l : List Vdev} {v w : Vdev} {s : Table} {devname : List UInt8}

theorem eq_of_addr (h : (chunks l).Nodup) (hv : v ∈ l) (hw : w ∈ l) (ha : v.addr = w.addr) :
    v = w := by
  induction l with
  | nil => exact absurd hv List.not_mem_nil
  | cons u l ih =>
    obtain ⟨-, hl, hdisj⟩ := List.nodup_append.mp h
    have hout : ∀ x ∈ l, x.addr ≠ u.addr := fun x hx heq ↦
      hdisj u.addr List.mem_cons_self x.addr
        (List.mem_flatMap.mpr ⟨x, hx, List.mem_cons_self⟩) heq.symm
    rcases List.mem_cons.mp hv with rfl | hvl
    · rcases List.mem_cons.mp hw with rfl | hwl
      · rfl
      · exact absurd ha.symm (hout w hwl)
    · rcases List.mem_cons.mp hw with rfl | hwl
      · exact absurd ha (hout v hvl)
      · exact ih hl hvl hwl

theorem find_name_iff (h : (l.map Vdev.devname).Nodup) :
    l.find? (fun v ↦ v.devname = devname) = some v ↔ v ∈ l ∧ v.devname = devname := by
  constructor
  · intro hf
    exact ⟨List.mem_of_find?_eq_some hf, of_decide_eq_true
      (List.find?_some (p := fun v : Vdev ↦ decide (v.devname = devname)) hf)⟩
  · rintro ⟨hv, hname⟩
    cases hf : l.find? fun v ↦ decide (v.devname = devname) with
    | none => exact absurd (decide_eq_true hname) (List.find?_eq_none.mp hf v hv)
    | some w =>
      have hw := of_decide_eq_true
        (List.find?_some (p := fun v : Vdev ↦ decide (v.devname = devname)) hf)
      rw [List.inj_on_of_nodup_map h (List.mem_of_find?_eq_some hf) hv (hw.trans hname.symm)]

/-- A name is in use by one device, so `find_mount` can look for both properties at once. -/
theorem findMount_eq (h : s.Wf) (devname : List UInt8) : findMount s devname =
    (s.vdevList.find? fun v ↦ v.devname = devname).filter fun v ↦ v.mountable := by
  cases hm : findMount s devname with
  | none =>
    refine (Option.eq_none_iff_forall_ne_some.mpr fun v hv ↦ ?_).symm
    obtain ⟨hf, hmount⟩ := Option.filter_eq_some_iff.mp hv
    obtain ⟨hmem, hname⟩ := (find_name_iff h.names).mp hf
    exact absurd (decide_eq_true ⟨hmount, hname⟩) (List.find?_eq_none.mp hm v hmem)
  | some v =>
    obtain ⟨hmount, hname⟩ := of_decide_eq_true (List.find?_some
      (p := fun v : Vdev ↦ decide (v.mountable = true ∧ v.devname = devname)) hm)
    exact (Option.filter_eq_some_iff.mpr ⟨(find_name_iff h.names).mpr
      ⟨List.mem_of_find?_eq_some hm, hname⟩, hmount⟩).symm

theorem devices_filter (h : s.Wf) (devname : List UInt8) :
    (s.devices devname).filter Entry.mountable = (findMount s devname).map Vdev.toEntry := by
  rw [findMount_eq h, Table.devices]
  cases s.vdevList.find? fun v ↦ decide (v.devname = devname) with
  | none => rfl
  | some v =>
    rw [Option.map_some, Option.filter_some, Option.filter_some,
      apply_ite (Option.map Vdev.toEntry)]
    rfl

end Lookup

section Update

variable {s : Table} {v : Vdev}

/-- A change of the entries. -/
theorem Table.Wf.map (h : s.Wf) (g : Vdev → Entry)
    (hg : ∀ v ∈ s.vdevList, (g v).mountable = true → (g v).devnode ≠ none) :
    ({ s with vdevList := s.vdevList.map fun v ↦ { v with toEntry := g v } } : Table).Wf := by
  have hname : (s.vdevList.map fun v ↦ { v with toEntry := g v }).map Vdev.devname =
      s.vdevList.map Vdev.devname := List.map_map
  have hchunks : chunks (s.vdevList.map fun v ↦ { v with toEntry := g v }) = chunks s.vdevList :=
    List.flatMap_map ..
  refine ⟨?_, ?_, ?_, fun w hw ↦ ?_⟩
  · rw [hname]
    exact h.names
  · rw [hchunks]
    exact h.nodup
  · rw [hchunks]
    exact h.live
  · obtain ⟨v, hv, rfl⟩ := List.mem_map.mp hw
    exact hg v hv

theorem devices_map (s : Table) (g : Vdev → Entry) (devname : List UInt8) :
    ({ s with vdevList := s.vdevList.map fun v ↦ { v with toEntry := g v } } : Table).devices
      devname = (s.vdevList.find? fun v ↦ v.devname = devname).map g := by
  rw [Table.devices, List.find?_map, Option.map_map]
  rfl

theorem setFs_eq (s : Table) (addr : ℕ) (fs : Option ℕ) : s.setFs addr fs =
    { s with vdevList := s.vdevList.map fun v ↦
      { v with toEntry := if v.addr = addr then { v.toEntry with fs := fs } else v.toEntry } } := by
  rw [Table.setFs]
  congr 1
  refine List.map_congr_left fun v _ ↦ ?_
  split_ifs <;> rfl

theorem Table.Wf.setFs (h : s.Wf) (addr : ℕ) (fs : Option ℕ) : (s.setFs addr fs).Wf := by
  rw [setFs_eq]
  refine h.map _ fun v hv hm ↦ ?_
  split_ifs at hm ⊢
  · exact h.node v hv hm
  · exact h.node v hv hm

/-- A store to one device changes what its name stands for. -/
theorem devices_setFs (h : s.Wf) (hv : v ∈ s.vdevList) (fs : Option ℕ) :
    (s.setFs v.addr fs).devices =
      Function.update s.devices v.devname (some { v.toEntry with fs := fs }) := by
  funext devname
  rw [setFs_eq, devices_map]
  by_cases hname : devname = v.devname
  · have hfind := (find_name_iff h.names).mpr ⟨hv, hname.symm⟩
    rw [hfind, Option.map_some, if_pos rfl, hname, Function.update_self]
  · rw [Function.update_of_ne hname, Table.devices]
    cases hf : s.vdevList.find? fun v ↦ decide (v.devname = devname) with
    | none => rfl
    | some w =>
      obtain ⟨hw, hwname⟩ := (find_name_iff h.names).mp hf
      have hne : w.addr ≠ v.addr := fun ha ↦ hname (by
        rw [← hwname, eq_of_addr h.nodup hw hv ha])
      rw [Option.map_some, Option.map_some, if_neg hne]

end Update

section Cons

variable {s : Table} {e : Entry} {n v : ℕ} {devname : List UInt8}

theorem devices_cons (l : List Vdev) (w : Vdev) (x : List UInt8) {live live' : Finset ℕ} :
    (⟨w :: l, live⟩ : Table).devices x =
      Function.update (⟨l, live'⟩ : Table).devices w.devname (some w.toEntry) x := by
  rw [Table.devices]
  by_cases hx : x = w.devname
  · rw [hx, Function.update_self]
    exact congrArg (Option.map Vdev.toEntry) (List.find?_cons_of_pos (decide_eq_true rfl))
  · rw [Function.update_of_ne hx, List.find?_cons_of_neg]
    · rfl
    · exact fun hd ↦ hx (of_decide_eq_true hd).symm

/-- A new device has a new name and new chunks. -/
theorem Table.Wf.cons (h : s.Wf) (hn : n ∉ s.live) (hv : v ∉ s.live) (hvn : v ≠ n)
    (hname : ¬(s.devices devname).isSome = true)
    (hnode : e.mountable = true → e.devnode ≠ none) :
    (⟨⟨e, v, n, devname⟩ :: s.vdevList, insert v (insert n s.live)⟩ : Table).Wf := by
  have hchunks : chunks (⟨e, v, n, devname⟩ :: s.vdevList) = v :: n :: chunks s.vdevList := rfl
  rw [h.live, List.mem_toFinset] at hn hv
  refine ⟨List.nodup_cons.mpr ⟨fun hmem ↦ ?_, h.names⟩, ?_, ?_, fun w hw ↦ ?_⟩
  · obtain ⟨w, hw, hwname⟩ := List.mem_map.mp hmem
    have hfind := (find_name_iff h.names).mpr ⟨hw, hwname⟩
    exact hname (by rw [Table.devices, hfind]; rfl)
  · rw [hchunks]
    exact List.nodup_cons.mpr ⟨fun hmem ↦ (List.mem_cons.mp hmem).elim hvn hv,
      List.nodup_cons.mpr ⟨hn, h.nodup⟩⟩
  · rw [hchunks, List.toFinset_cons, List.toFinset_cons, ← h.live]
  · rcases List.mem_cons.mp hw with rfl | hwl
    · exact hnode
    · exact h.node w hwl

end Cons

/-! ## Every call -/

section Step

variable {s t : Table} {a : Answer}

theorem Table.Wf.init : Table.init.Wf :=
  ⟨List.nodup_nil, List.nodup_nil, rfl, fun _ hv ↦ absurd hv List.not_mem_nil⟩

theorem fst_eq {b : Answer} (h : some (s, b) = some (t, a)) : s = t :=
  (Prod.mk.inj (Option.some.inj h)).1

theorem kfree_kmalloc {n : ℕ} (hn : n ∉ s.live) : (s.kmalloc n).kfree n = s := by
  rw [Table.kmalloc, Table.kfree, Finset.erase_insert hn]

/-- A device is added under a new name, or everything is as before. -/
theorem vfsDoAdd_spec (h : s.Wf) {devname : List UInt8} {e : Entry} {name vdev : Option ℕ}
    (hfresh : (Call.add devname e name vdev).Fresh s) :
    (vfsDoAdd s devname e name vdev).map (fun r ↦ (r.1.devices, r.2)) =
        s.devices.add devname e (name.isSome && vdev.isSome) ∧
      ∀ t a, vfsDoAdd s devname e name vdev = some (t, a) → t.Wf := by
  rw [vfsDoAdd.eq_def, Devices.add]
  by_cases hassert : e.devnode = none ∧ e.mountable = true
  · rw [if_pos hassert, if_pos hassert]
    exact ⟨rfl, fun t a hr ↦ by cases hr⟩
  rw [if_neg hassert, if_neg hassert]
  by_cases hlen : fsMaxDnameLen < devname.length
  · rw [if_pos hlen, if_pos hlen]
    exact ⟨rfl, fun t a hr ↦ fst_eq hr ▸ h⟩
  rw [if_neg hlen, if_neg hlen]
  cases name with
  | none =>
    exact ⟨rfl, fun t a hr ↦ fst_eq hr ▸ h⟩
  | some n =>
    have hn : n ∉ s.live := hfresh.1 n rfl
    cases vdev with
    | none =>
      dsimp only
      rw [kfree_kmalloc hn]
      exact ⟨rfl, fun t a hr ↦ fst_eq hr ▸ h⟩
    | some v =>
      obtain ⟨hv, hne⟩ := hfresh.2 v rfl
      have hvn : v ≠ n := fun heq ↦ hne (heq ▸ rfl)
      have hvl : v ∉ (s.kmalloc n).live := fun hmem ↦
        (Finset.mem_insert.mp hmem).elim hvn hv
      have hconf : ((s.kmalloc n).kmalloc v).vdevList.any (fun w ↦ w.devname = devname) =
          (s.devices devname).isSome := by
        rw [Table.devices, Option.isSome_map, Bool.eq_iff_iff, List.any_eq_true, List.find?_isSome]
        rfl
      dsimp only
      rw [hconf, Option.isSome_some, Option.isSome_some, Bool.and_true,
        if_neg (show ¬true = false from Bool.noConfusion)]
      by_cases hsome : (s.devices devname).isSome = true
      · rw [if_pos hsome, if_pos hsome, kfree_kmalloc hvl, kfree_kmalloc hn]
        exact ⟨rfl, fun t a hr ↦ fst_eq hr ▸ h⟩
      · rw [if_neg hsome, if_neg hsome]
        refine ⟨congrArg (fun m ↦ some (m, Answer.ok)) ?_, fun t a hr ↦ ?_⟩
        · funext x
          exact devices_cons s.vdevList _ x
        · obtain ⟨rfl, -⟩ := Prod.mk.inj (Option.some.inj hr)
          exact h.cons hn hv hvn hsome fun hm hnode ↦ hassert ⟨hnode, hm⟩

theorem findMount_some {v : Vdev} {devname : List UInt8} (hf : findMount s devname = some v) :
    v ∈ s.vdevList ∧ v.devname = devname := by
  have hprop := of_decide_eq_true (List.find?_some
    (p := fun v : Vdev ↦ decide (v.mountable = true ∧ v.devname = devname)) hf)
  exact ⟨List.mem_of_find?_eq_some hf, hprop.2⟩

theorem vfsMount_spec (h : s.Wf) (devname : List UInt8)
    (mountfunc : ℕ → Except Errno (Option ℕ)) :
    (vfsMount s devname mountfunc).map (fun r ↦ (r.1.devices, r.2)) =
        s.devices.mount devname mountfunc ∧
      ∀ t a, vfsMount s devname mountfunc = some (t, a) → t.Wf := by
  rw [vfsMount, Devices.mount, devices_filter h]
  cases hf : findMount s devname with
  | none =>
    exact ⟨rfl, fun t a hr ↦ fst_eq hr ▸ h⟩
  | some v =>
    obtain ⟨hv, rfl⟩ := findMount_some hf
    rw [Option.map_some]
    dsimp only
    cases v.fs with
    | some fs =>
      exact ⟨rfl, fun t a hr ↦ fst_eq hr ▸ h⟩
    | none =>
      dsimp only
      cases hnode : v.devnode with
      | none => exact ⟨rfl, fun t a hr ↦ by cases hr⟩
      | some node =>
        rw [Option.bind_some, Option.bind_some]
        cases mountfunc node with
        | error err =>
          exact ⟨rfl, fun t a hr ↦ fst_eq hr ▸ h⟩
        | ok r =>
          cases r with
          | none => exact ⟨rfl, fun t a hr ↦ by cases hr⟩
          | some fs =>
            have hset := devices_setFs h hv (some fs)
            dsimp only at hset
            rw [hnode] at hset
            refine ⟨congrArg (fun m ↦ some (m, Answer.ok)) hset, fun t a hr ↦ ?_⟩
            obtain ⟨rfl, -⟩ := Prod.mk.inj (Option.some.inj hr)
            exact h.setFs _ _

theorem vfsUnmount_spec (h : s.Wf) (devname : List UInt8)
    (fsopSync fsopUnmount : ℕ → Option Errno) :
    ((vfsUnmount s devname fsopSync fsopUnmount).1.devices,
      (vfsUnmount s devname fsopSync fsopUnmount).2) =
        s.devices.unmount devname fsopSync fsopUnmount ∧
      (vfsUnmount s devname fsopSync fsopUnmount).1.Wf := by
  rw [vfsUnmount, Devices.unmount, devices_filter h]
  cases hf : findMount s devname with
  | none => exact ⟨rfl, h⟩
  | some v =>
    obtain ⟨hv, rfl⟩ := findMount_some hf
    rw [Option.map_some]
    dsimp only
    cases v.fs with
    | none => exact ⟨rfl, h⟩
    | some fs =>
      dsimp only
      cases syncUnmount fsopSync fsopUnmount fs with
      | some err => exact ⟨rfl, h⟩
      | none => exact ⟨congrArg (·, Answer.ok) (devices_setFs h hv _), h.setFs _ _⟩

theorem Entry.unmount_kept (fsopSync fsopUnmount : ℕ → Option Errno) (e : Entry) :
    (e.unmount fsopSync fsopUnmount).mountable = e.mountable ∧
      (e.unmount fsopSync fsopUnmount).devnode = e.devnode := by
  rw [Entry.unmount]
  cases e.fs with
  | none => exact ⟨rfl, rfl⟩
  | some fs =>
    dsimp only
    split_ifs
    · exact ⟨rfl, rfl⟩
    · exact ⟨rfl, rfl⟩

/-- Every call does to the table what it is to do to the map. -/
theorem Call.exec_spec (h : s.Wf) (c : Call) (hfresh : c.Fresh s) :
    (c.exec s).map (fun r ↦ (r.1.devices, r.2)) = c.spec s.devices ∧
      ∀ t a, c.exec s = some (t, a) → t.Wf := by
  cases c with
  | add devname e name vdev => exact vfsDoAdd_spec h hfresh
  | mount devname mountfunc => exact vfsMount_spec h devname mountfunc
  | unmount devname fsopSync fsopUnmount =>
    obtain ⟨hspec, hwf⟩ := vfsUnmount_spec h devname fsopSync fsopUnmount
    refine ⟨congrArg some hspec, fun t a hr ↦ ?_⟩
    have ht : (vfsUnmount s devname fsopSync fsopUnmount).1 = t :=
      congrArg Prod.fst (Option.some.inj hr)
    exact ht ▸ hwf
  | unmountAll fsopSync fsopUnmount =>
    refine ⟨congrArg (fun m ↦ some (m, Answer.ok)) ?_, fun t a hr ↦ ?_⟩
    · funext devname
      rw [vfsUnmountAll, devices_map, Table.devices, Option.map_map]
      rfl
    · obtain ⟨rfl, -⟩ := Prod.mk.inj (Option.some.inj hr)
      refine h.map _ fun v hv hm ↦ ?_
      obtain ⟨hmount, hnode⟩ := v.toEntry.unmount_kept fsopSync fsopUnmount
      rw [hnode]
      exact h.node v hv (hmount.symm.trans hm)
  | getRoot devname fsopGetRoot =>
    rw [Call.exec, Call.spec, vfsGetRoot, Table.devices]
    cases s.vdevList.find? fun v ↦ decide (v.devname = devname) with
    | none =>
      exact ⟨rfl, fun t a hr ↦ fst_eq hr ▸ h⟩
    | some v =>
      rw [Option.map_some]
      dsimp only
      cases v.root fsopGetRoot with
      | none => exact ⟨rfl, fun t a hr ↦ by cases hr⟩
      | some r =>
        exact ⟨rfl, fun t a hr ↦ fst_eq hr ▸ h⟩

theorem Run.spec {l : List (Call × Answer)} (hrun : Run s l t) (h : s.Wf) :
    SpecRun s.devices l t.devices ∧ t.Wf := by
  induction hrun with
  | refl s => exact ⟨.refl _, h⟩
  | @head s t u c a l hfresh hexec _ ih =>
    obtain ⟨hspec, hwf⟩ := c.exec_spec h hfresh
    obtain ⟨hrest, hu⟩ := ih (hwf t a hexec)
    rw [hexec, Option.map_some] at hspec
    exact ⟨.head hspec.symm hrest, hu⟩

/-- A device with an inode is there to mount on: only a `mountfunc` that returns 0 without a file
system fails an assertion. -/
theorem exists_of_vfsMount_none (h : s.Wf) {devname : List UInt8}
    {mountfunc : ℕ → Except Errno (Option ℕ)} (hnone : vfsMount s devname mountfunc = none) :
    ∃ node, mountfunc node = .ok none := by
  rw [vfsMount] at hnone
  cases hf : findMount s devname with
  | none =>
    rw [hf] at hnone
    cases hnone
  | some v =>
    have hmount := (of_decide_eq_true (List.find?_some
      (p := fun v : Vdev ↦ decide (v.mountable = true ∧ v.devname = devname)) hf)).1
    obtain ⟨node, hnode⟩ := Option.ne_none_iff_exists'.mp (h.node v (findMount_some hf).1 hmount)
    rw [hf] at hnone
    dsimp only at hnone
    cases hfs : v.fs with
    | some fs =>
      rw [hfs] at hnone
      cases hnone
    | none =>
      rw [hfs, hnode, Option.bind_some] at hnone
      refine ⟨node, ?_⟩
      rcases hcall : mountfunc node with e | _ | fs
      · rw [hcall] at hnone
        cases hnone
      · rfl
      · rw [hcall] at hnone
        cases hnone

theorem length_chunks (l : List Vdev) : (chunks l).length = 2 * l.length := by
  rw [chunks, List.length_flatMap]
  simp [mul_comm]

end Step

/-- **The table is a map.** In every run from boot on, with any answers of `kmalloc` and of the file
systems, the calls answer as those on a map from names to devices that is empty at first, and the
table stands for that map; every name is there once; the memory in use is that of the devices and of
their names, whatever calls have failed; and mounting meets no null pointer but one that `mountfunc`
has left. -/
theorem devTable_refines {l : List (Call × Answer)} {s : Table} (hrun : Run Table.init l s) :
    SpecRun (fun _ ↦ none) l s.devices ∧ (s.vdevList.map Vdev.devname).Nodup ∧
      (∀ a, a ∈ s.live ↔ ∃ v ∈ s.vdevList, a = v.addr ∨ a = v.nameAddr) ∧
      s.live.card = 2 * s.vdevList.length ∧
      ∀ devname mountfunc, vfsMount s devname mountfunc = none →
        ∃ node, mountfunc node = .ok none := by
  obtain ⟨hspec, hwf⟩ := hrun.spec .init
  refine ⟨hspec, hwf.names, fun a ↦ ?_, ?_, fun _ _ ↦ exists_of_vfsMount_none hwf⟩
  · rw [hwf.live, List.mem_toFinset, chunks, List.mem_flatMap]
    simp only [List.mem_cons, List.not_mem_nil, or_false]
  · rw [hwf.live, List.toFinset_card_of_nodup hwf.nodup, length_chunks]

/-- `"disk0"`. -/
def disk0 : List UInt8 := [100, 105, 115, 107, 48]

/-- A second device of that name is refused, and its memory is given back. -/
theorem devTable_refines_sample : ∃ s, Run Table.init
    [(vfsAddDev disk0 (some 5) true (some 1) (some 2), .ok),
      (.mount disk0 fun _ ↦ .ok (some 9), .ok),
      (vfsAddDev disk0 (some 6) false (some 3) (some 4), .error (.errno .exists)),
      (.getRoot disk0 some, .node 9)] s ∧ s.live.card = 2 := by
  have hrun : Run Table.init
      [(vfsAddDev disk0 (some 5) true (some 1) (some 2), .ok),
      (.mount disk0 fun _ ↦ .ok (some 9), .ok),
        (vfsAddDev disk0 (some 6) false (some 3) (some 4), .error (.errno .exists)),
        (.getRoot disk0 some, .node 9)] ⟨[⟨⟨some 5, some 9, true⟩, 2, 1, disk0⟩], {2, 1}⟩ :=
    .head (t := ⟨[⟨⟨some 5, none, true⟩, 2, 1, disk0⟩], {2, 1}⟩) (by simp [vfsAddDev, Call.Fresh,
      Table.init]) rfl (.head trivial rfl (.head (by simp [vfsAddDev, Call.Fresh,
        Table.setFs]) rfl
        (.head trivial rfl (.refl _))))
  exact ⟨_, hrun, (devTable_refines hrun).2.2.2.1⟩

end VfsDevs

end Ucore
