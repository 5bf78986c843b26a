import PortableFS.Restore.Restart

/-!
# Convergence

`commitConverged`, `vcs/internal/restoremode/mode.go:816`, and the record that it writes,
`files.go:87`. Looking at the marks and writing the record are two events, and anything may happen
between them. A rename that no directory sync followed may or may not survive a crash, so the disk
is the list of what may be found of the record, the visible state first.
-/

namespace PortableFS.Restore

open Function

/-- How `writeAtomicJSON` of the record ends. -/
inductive Commit where
  /-- An error before the rename. -/
  | failed
  /-- The directory was not opened or not synced after the rename. -/
  | replaced
  /-- The directory was synced, but not closed. -/
  | unclosed
  | ok
deriving DecidableEq

/-- Whether the record may be found after a write. -/
def Commit.found (found : List Bool) : Commit → List Bool
  | .failed => found
  | .replaced => true :: found
  | _ => [true]

/-- A volume that is being restored: its mode, whether `commitConverged` has found every stored
chunk durable, and what may be found of the converged record. -/
structure Volume where
  mode : Machine
  checked : Bool
  found : List Bool

/-- What happens to a volume. -/
inductive Event where
  | op (op : Op)
  /-- The end of `drain`, `mode.go:769`, and the loop over `stored`. -/
  | check
  /-- The rest of `commitConverged`. -/
  | write (o : Commit)

/-- The volume after an event. -/
def Volume.next (cfg : Config) (A : Archive) (v : Volume) : Event → Volume
  | .op op => { v with mode := v.mode.next cfg A op }
  | .check => { v with
      checked := v.mode.health ≠ .corrupt ∧ v.mode.info.order.all (· ∈ v.mode.durableKeys) }
  | .write o =>
    if v.checked then
      { v with
        mode := if o = .ok then { v.mode with converged := true } else v.mode
        found := o.found v.found }
    else v

/-- The volume after events in order. -/
def Volume.run (cfg : Config) (A : Archive) (v : Volume) (events : List Event) : Volume :=
  events.foldl (Volume.next cfg A) v

/-- `files.go:43`, of a volume with its ready marker: the next start restores again. -/
def active (converged : Bool) : Bool := !converged

/-- An event of one life of a mode in which the map file does not fail. -/
def Event.Serves : Event → Prop
  | .op served => served.Serves ∧ served ≠ .converge
  | _ => True

/-- The states of a volume from the moment at which its mode is initialized, after any number of
restarts. -/
inductive Volume.Reachable (cfg : Config) (A : Archive) (info : InfoPage) : Volume → Prop where
  | initialized {s : Machine} (h : s.Restoring cfg A info) (hinit : s.initialized = true)
      (hconv : s.converged = false) : Reachable cfg A info ⟨s, false, [false]⟩
  | next {v : Volume} (h : Reachable cfg A info v) (e : Event) (he : e.Serves) :
      Reachable cfg A info (v.next cfg A e)

variable {cfg : Config} {A : Archive} {info : InfoPage} {s : Machine} {v : Volume}

/-- Only unlinked files are discarded. -/
def Machine.KeepsLinked (s : Machine) : Prop := ∀ entry, s.present entry = true ∨ s.linked entry = false

private theorem Machine.KeepsLinked.exec (h : s.KeepsLinked) (t : Tid) (th : Thread)
    (rest : List Instr) (env : Env) (i : Instr) : (s.exec A t th rest env i).KeepsLinked := by
  intro entry
  rcases exec_cases A s t th rest env i with hr | ⟨e, op, rfl, hrefused⟩ | ⟨key, rfl, hgone⟩
  · rw [hr.present, hr.mode.linked]
    exact h entry
  · simp only [Machine.exec, hrefused, Bool.false_eq_true, if_false]
    exact h entry
  simp only [Machine.exec, if_neg hgone]
  split
  · change update s.present key.entry false entry = true ∨ s.linked entry = false
    by_cases he : entry = key.entry
    · subst he
      refine .inr ((h key.entry).elim (fun hp => ?_) id)
      exact Bool.eq_false_of_not_eq_true fun hl => hgone ⟨hp, hl⟩
    · rw [update_of_ne he]
      exact h entry
  · exact h entry

private theorem Machine.KeepsLinked.next (h : s.KeepsLinked) (hs : s.Inv cfg A) {op : Op}
    (hop : op.Serves) : (s.next cfg A op).KeepsLinked := by
  intro entry
  rcases hs.untouched hop with ⟨t, env, rfl⟩ | ⟨e, rfl⟩ | hu
  · change (s.step A t env).present entry = true ∨ (s.step A t env).linked entry = false
    unfold Machine.step
    split
    · exact h entry
    · split
      · exact h entry
      · exact h.exec t _ _ env _ entry
  · refine (h entry).imp_right fun hl => ?_
    change update s.linked e false entry = false
    by_cases he : entry = e
    · rw [he, update_self]
    · rw [update_of_ne he, hl]
  · rw [hu.recorded.present, hu.linked]
    exact h entry

private structure Volume.Inv (cfg : Config) (A : Archive) (info : InfoPage) (v : Volume) : Prop where
  mode : v.mode.Inv cfg A
  page : v.mode.info = info
  linked : v.mode.KeepsLinked
  checked : v.checked = true → v.mode.AllDurable A
  found : true ∈ v.found → v.mode.AllDurable A

private theorem Volume.Inv.op (h : v.Inv cfg A info) {op : Op} (hop : op.Serves) :
    (v.next cfg A (.op op)).Inv cfg A info := by
  obtain ⟨hsub, hinfo⟩ := h.mode.durableKeys_next hop
  exact ⟨h.mode.next hop, hinfo.trans h.page, h.linked.next h.mode hop,
    fun hc key hkey => hsub (h.checked hc key hkey), fun hf key hkey => hsub (h.found hf key hkey)⟩

private theorem Volume.Inv.write (h : v.Inv cfg A info) (o : Commit) :
    (v.next cfg A (.write o)).Inv cfg A info := by
  simp only [Volume.next]
  split
  · next hc =>
    have hall := h.checked hc
    split
    · exact ⟨h.mode.setConverged hall, h.page, h.linked, fun _ => hall, fun _ => hall⟩
    · exact ⟨h.mode, h.page, h.linked, fun _ => hall, fun _ => hall⟩
  · exact h

private theorem Volume.Reachable.inv (h : Reachable cfg A info v)
    (hinfo : Machine.FirstBoot cfg A info) : v.Inv cfg A info := by
  induction h with
  | @initialized s h hinit hconv =>
    rcases h.sound hinfo with hwait | ⟨hs, hpage, hwhole⟩
    · rw [hwait.initialized] at hinit
      cases hinit
    · exact ⟨hs, hpage, fun entry => .inl (hwhole.present entry), nofun, by simp⟩
  | next h e he ih =>
    cases e with
    | op op => exact ih.op he.1
    | check =>
      refine ⟨ih.mode, ih.page, ih.linked, fun hc key hkey => ?_, ih.found⟩
      rw [← ih.mode.order] at hkey
      exact of_decide_eq_true (List.all_eq_true.mp (of_decide_eq_true hc).2 key hkey)
    | write o => exact ih.write o

/-- Convergence is final, as long as the map file does not fail: the record is on disk only when
every stored chunk is marked; a marked chunk has on stable storage what the operations of its last
`fdatasync` make of the sealed bytes, or its unlinked file was discarded; marks stay, also over a
crash; and a volume that the next start does not restore has all of its files. -/
theorem Volume.Reachable.converged_final (h : Reachable cfg A info v)
    (hinfo : Machine.FirstBoot cfg A info) :
    (true ∈ v.found → v.mode.AllDurable A) ∧
    (∀ key ∈ A.order, key ∈ v.mode.durableKeys →
      A.Agrees key (v.mode.stable key.entry) (v.mode.stableContent A key.entry) ∨
        v.mode.present key.entry = false ∧ v.mode.linked key.entry = false) ∧
    (∀ e : Event, e.Serves → v.mode.durableKeys ⊆ (v.next cfg A e).mode.durableKeys) ∧
    (∀ keep, ∃ m, openHydrationMap (Machine.mapConfig cfg info) (v.mode.crash keep).mapFile = .ok m ∧
      m.durable = v.mode.durableKeys) ∧
    ∀ record ∈ v.found, active record = false → ∀ keep entry, v.mode.present entry = true →
      (v.mode.crash keep).disk entry = v.mode.stableContent A entry := by
  have hv := h.inv hinfo
  refine ⟨hv.found, fun key hkey hdur => ?_, fun e he => ?_, fun keep => ?_, ?_⟩
  · cases hp : v.mode.present key.entry with
    | true => exact .inl ((hv.mode.content key.entry hp).2.1.agrees hkey rfl hdur)
    | false =>
      refine .inr ⟨rfl, (hv.linked key.entry).resolve_left ?_⟩
      rw [hp]
      exact Bool.false_ne_true
  · cases e with
    | op op => exact (hv.mode.durableKeys_next he.1).1
    | check => exact subset_rfl
    | write o =>
      simp only [Volume.next]
      split
      · split <;> exact subset_rfl
      · exact subset_rfl
  · obtain ⟨m, hm, -, -, hdur⟩ := hv.mode.opens_crash hinfo hv.page keep
    exact ⟨m, hm, hdur⟩
  · intro record hrecord hactive keep entry hp
    obtain rfl : record = true := by simpa [active] using hactive
    exact (hv.mode.content entry hp).2.1.eq fun key hkey _ => hv.found hrecord key hkey

private def drains (n : ℕ) (key : ChunkKey) : List Event :=
  .op (.start n (.drain key)) :: List.replicate 12 (.op (.step n .ok))

private theorem Volume.Reachable.run (h : Reachable cfg A info v) {events : List Event}
    (he : ∀ e ∈ events, e.Serves) : Reachable cfg A info (v.run cfg A events) := by
  induction events generalizing v with
  | nil => exact h
  | cons e events ih =>
    exact ih (h.next e (he e List.mem_cons_self)) fun e' hmem => he e' (List.mem_cons_of_mem _ hmem)

private def booted : Volume :=
  ⟨(Machine.materialized twoChunks).bootstrap oneFile (.ok twoChunksInfo), false, [false]⟩

theorem converged_final_twoChunks :
    let v := booted.run oneFile twoChunks
      (drains 0 ⟨0, 0⟩ ++ drains 1 ⟨0, 1⟩ ++ [.check, .write .ok])
    v.found = [true] ∧ v.mode.converged = true ∧
      (v.mode.crash 0).disk 0 = v.mode.stableContent twoChunks 0 := by
  have hinfo : Machine.FirstBoot oneFile twoChunks twoChunksInfo := ⟨rfl, rfl, by decide +kernel⟩
  have hbooted : Volume.Reachable oneFile twoChunks twoChunksInfo booted :=
    .initialized (.next .materialized (.bootstrap (.ok twoChunksInfo)) rfl) (by decide +kernel) rfl
  have hserves : ∀ e ∈ drains 0 ⟨0, 0⟩ ++ drains 1 ⟨0, 1⟩ ++ [.check, .write .ok], e.Serves := by
    simp [drains, Event.Serves, Op.Serves, Env.ok]
  have hfinal := ((hbooted.run hserves).converged_final hinfo).2.2.2.2
  exact ⟨by decide +kernel, by decide +kernel,
    hfinal true (by decide +kernel) rfl 0 0 (by decide +kernel)⟩

/-- An append to the map that fails after one byte, and the attempt after it: the chunk is marked,
and after a crash the map does not open. -/
theorem mark_lost_append :
    let v := booted.run oneFile twoChunks (.op (.start 0 (.drain ⟨0, 0⟩)) ::
      List.replicate 12 (.op (.step 0 { Env.ok with map := .append 1 })) ++ drains 1 ⟨0, 0⟩)
    ⟨0, 0⟩ ∈ v.mode.durableKeys ∧
      ((v.mode.crash 0).bootstrap oneFile (.ok twoChunksInfo)).health = .corrupt := by
  decide +kernel

end PortableFS.Restore
