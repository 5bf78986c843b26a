import PortableFS.Locks.Progress

/-!
# Calm runs

Module `volumeserver`, `vcs/internal/volumeserver/locks.go:339–661`. A call is calm when its owner keeps
the coverage that its own queued requests count on and queues no overlapping requests of
different types. Along calm calls the wait-for relation has no cycle and every request that
could be granted has been granted; one call that is not calm breaks either.
-/

namespace PortableFS.Locks

open PortableFS.Base

namespace LockTable

/-- No owners wait for each other in a circle, and no queued request is ready. -/
structure Served (t : LockTable) : Prop where
  acyclic : t.space.Acyclic Clash
  uniform : t.Uniform
  served : ∀ w, ¬ t.Ready w

variable {t : LockTable} {t' : LockTable}

theorem Served.same (h : t.Served) (hc : SameCore t t') : t'.Served where
  acyclic := hc.space ▸ h.acyclic
  uniform := h.uniform.mono fun w hw => (hc.queued w).mp hw
  served w hw := h.served w ((hc.ready w).mp hw)

variable {k : ObjectKey}

/-- A cascade over a span that meets every ready waiter of the table serves them all. -/
theorem wakeEligible_served (hi : Inv none t) (hidle : t.Idle) (hac : t.space.Acyclic Clash)
    (huni : t.Uniform) {span : LockRange}
    (hspan : ∀ w, t.Ready w → w.lock.object = k ∧ overlaps w.lock.range span = true) :
    (t.wakeEligibleLocked k span).Served := by
  obtain ⟨h1, h2, h3⟩ := wakeEligible_serves hi hidle hac huni k span fun w hw _ => (hspan w hw).2
  refine ⟨h1, h2, fun w hw => ?_⟩
  obtain ⟨hw, hne⟩ := h3 w hw
  exact hne (hspan w hw).1

/-- A plan that wakes the span it touched whenever it made a waiter ready serves it. -/
theorem perform_served {id : SessionID} {plan : LockPlan} {history : List Grant}
    (hi : Inv none (t.installPlan k id plan history)) (hidle : t.Idle)
    (hac : (t.installPlan k id plan history).space.Acyclic Clash)
    (huni : (t.installPlan k id plan history).Uniform)
    (hready : ∀ w, (t.installPlan k id plan history).Ready w → plan.weakens = true ∧
      w.lock.object = k ∧ overlaps w.lock.range plan.touched = true) :
    (t.perform k id plan history).Served := by
  unfold perform
  split
  · exact wakeEligible_served hi ⟨hidle.waking, hidle.pendingWake⟩ hac huni
      fun w hw => (hready w hw).2
  · next hnot => exact ⟨hac, huni, fun w hw => hnot (hready w hw).1⟩

/-- No queued request of the owner counts on coverage that the request would weaken. -/
def KeepsCoverage (t : LockTable) (lock : Lock) : Prop :=
  ∀ w, t.Queued w → w.lock.owner = lock.owner → w.lock.object = lock.object →
    ∀ x ∈ w.lock.range, x ∈ lock.range →
    (t.objectLocked lock.object).Covers lock.owner w.lock.type x → w.lock.type ≤ lock.type

variable {w : Waiter}

theorem Inv.seq_lt (hi : Inv none t) (hw : t.Queued w) : w.seq < t.nextSeq + 1 :=
  Nat.lt_succ_of_le (hi.pending _ _ (hi.queued w hw)).1

variable {lock : Lock}

/-- An admitted request that keeps its owner's coverage leaves the table served. -/
theorem Served.acquire (hg : t.Good) (h : t.Served) {s : LockSession} {seq : Nat}
    (hlast : ∀ w, t.Queued w → w.seq < seq) (hv : lock.range.start ≤ lock.range.stop)
    (hs : t.sessions.lookup lock.owner.session = some s)
    (hadm : (t.objectLocked lock.object).Admits lock (some seq))
    (hlim : t.exceedsLimits lock.owner.session
      (planAcquireLocked (some (t.objectLocked lock.object)) lock) = false)
    (hkept : t.KeepsCoverage lock) (history : List Grant) :
    (t.perform lock.object lock.owner.session
      (planAcquireLocked (some (t.objectLocked lock.object)) lock) history).Served := by
  have hi := hg.inv
  have hi' := hi.install (hi.acquire_edits hv hadm) history hs hlim
  have hqueued := queued_install t lock.object lock.owner.session
    (planAcquireLocked (some (t.objectLocked lock.object)) lock) history
  have hgr : LockSpace.Grants Clash t.space (t.installPlan lock.object lock.owner.session
      (planAcquireLocked (some (t.objectLocked lock.object)) lock) history).space
      ⟨lock.owner, lock.type, lock.region, seq⟩ := by
    apply space_grants hi hi' hv hadm
    · exact heldAt_install_acquire hi hv (hi.object lock.object) rfl hadm _ history
    · intro w
      rw [hqueued]
      exact ⟨fun hw => ⟨hw, Nat.ne_of_lt (hlast w hw)⟩, And.left⟩
    · exact fun w hw hseq => absurd hseq (Nat.ne_of_lt (hlast w hw))
    · exact .inr hlast
    · exact fun w hw => hkept w ((hqueued w).mp hw)
  apply perform_served hi' hg.idle
  · exact h.acyclic.mono fun a b => hgr.waitsFor Clash.symm Clash.mono
  · exact h.uniform.mono fun w hw => (hqueued w).mp hw
  · rintro w ⟨hq, had⟩
    rcases admits_or_of_grants hi hi' hv h.acyclic hgr hq had with had | ⟨hweak, hobj, hov⟩
    · exact absurd ⟨(hqueued w).mp hq, had⟩ (h.served w)
    · exact ⟨hweak, hobj, overlaps_within hov (planAcquire_touched _ lock)⟩

/-- A call to `set` that keeps its owner's coverage leaves the table served. -/
theorem Served.set (hg : t.Good) (h : t.Served) (hkept : t.KeepsCoverage lock) :
    (t.set lock).1.Served := by
  have hspec := set_spec hg lock
  generalize t.set lock = result at hspec ⊢
  cases hspec with
  | failed err => exact h
  | installed hv hs hlive hadm hlim =>
    have hadm' : (t.objectLocked lock.object).Admits lock (some (t.nextSeq + 1)) :=
      ⟨hadm.1, fun x hx hn w hw _ => hadm.2 x hx hn w hw nofun⟩
    exact (h.acquire hg (fun _ => hg.inv.seq_lt) hv hs hadm' hlim hkept _).same (sameCore_prune _ _)

/-- No queued request of the owner counts on bytes of the range. -/
def KeepsClear (t : LockTable) (k : ObjectKey) (owner : LockOwner) (r : LockRange) : Prop :=
  ∀ w, t.Queued w → w.lock.owner = owner → w.lock.object = k →
    ∀ x ∈ w.lock.range, x ∈ r → ¬ (t.objectLocked k).Covers owner w.lock.type x

/-- A call to `unlock` of bytes that no queued request of the owner counts on leaves the table
served. -/
theorem Served.unlock (hg : t.Good) (h : t.Served) {owner : LockOwner}
    {r : LockRange} (hclear : t.KeepsClear k owner r) : (t.unlock k owner r).1.Served := by
  have hspec := unlock_spec hg k owner r
  generalize t.unlock k owner r = result at hspec ⊢
  cases hspec with
  | failed err => exact h
  | nothing hv hnone => exact h
  | released hv hs hlive hsome hlim =>
    have hi := hg.inv
    have hi' := hi.install (hi.release_edits k owner hv) [] hs hlim
    have hqueued := queued_install t k owner.session
      (planReleaseLocked (some (t.objectLocked k)) owner r) []
    have hat := heldAt_install_release hi k owner hv owner.session []
    have hrec : LockSpace.Recedes t.space (t.installPlan k owner.session
        (planReleaseLocked (some (t.objectLocked k)) owner r) []).space := by
      apply space_recedes hi hi'
      · exact fun w hw => (hqueued w).mp hw
      · exact fun k' o ty x hh => ((hat k' o ty x).mp hh).2
      intro w hw x hx hcov
      obtain ⟨ty, hle, hh⟩ := covers_iff_heldAt.mp hcov
      refine covers_iff_heldAt.mpr ⟨ty, hle, (hat _ _ _ _).mpr ⟨?_, hh⟩⟩
      rintro ⟨rfl, rfl, hr⟩
      exact hclear w ((hqueued w).mp hw) rfl rfl x hx hr hcov
    refine Served.same ?_ (sameCore_prune _ _)
    apply perform_served hi' hg.idle
    · exact h.acyclic.mono fun a b => hrec.waitsFor Clash.mono
    · exact h.uniform.mono fun w hw => (hqueued w).mp hw
    rintro w ⟨hq, had⟩
    rcases admits_or_of_recedes hi hi' hrec hq had with
      had | ⟨x, hx, o, ty, hh, hn⟩ | ⟨w', hw', hgone, _⟩
    · exact absurd ⟨(hqueued w).mp hq, had⟩ (h.served w)
    · rw [hat] at hn
      obtain ⟨hobj, _, hr⟩ := not_not.mp fun hne => hn ⟨hne, hh⟩
      have hov := (overlaps_iff_exists (hi'.queued_valid hq) hv).mpr ⟨x, hx, hr⟩
      refine ⟨?_, hobj, overlaps_within hov (planRelease_touched _ owner r)⟩
      exact Bool.not_eq_true' _ ▸ (List.isEmpty_eq_false_iff.mpr hsome)
    · exact absurd ((hqueued w').mpr hw') hgone

/-- Withdrawing a queued waiter with its cascade leaves the table served. -/
theorem Served.withdraw (hg : t.Good) (h : t.Served) (hq : t.Queued w) (err : Option LockError) :
    ((retireWaiter err t w).wakeEligibleLocked w.lock.object w.lock.range).Served := by
  have hi := hg.inv
  have hi' := hi.retire hq err
  have hrec := recedes_retire hi hq err
  have hqueued := queued_retire hi hq err
  apply wakeEligible_served hi' (idle_retire hg.idle err w)
  · exact h.acyclic.mono fun a b => hrec.waitsFor Clash.mono
  · exact h.uniform.mono fun y hy => ((hqueued y).mp hy).1
  rintro y ⟨hy, had⟩
  rcases admits_or_of_recedes hi hi' hrec hy had with
    had | ⟨x, _, owner, ty, hh, hn⟩ | ⟨w', hw', hgone, hobj, hov⟩
  · exact absurd ⟨((hqueued y).mp hy).1, had⟩ (h.served y)
  · exact absurd hh (held_retire hi hq err _ ▸ hn)
  · obtain rfl : w' = w := not_not.mp fun hne => hgone ((hqueued w').mpr ⟨hw', hne⟩)
    exact ⟨hobj.symm, hov⟩

/-- Queued requests of the owner that overlap the request are of its type. -/
def SameKind (t : LockTable) (lock : Lock) : Prop :=
  ∀ w, t.Queued w → w.lock.owner = lock.owner → w.lock.object = lock.object →
    overlaps w.lock.range lock.range = true → w.lock.type = lock.type

theorem SameKind.keepsCoverage (h : t.SameKind lock) : t.KeepsCoverage lock := by
  intro w hw ho hk x hx hxl _
  rw [LockRange.mem_iff] at hx hxl
  rw [h w hw ho hk (overlaps_iff.mpr ⟨by omega, by omega⟩)]

/-- A blocked request without a deadlock joins the queue of a served table. -/
theorem Served.enqueue (hi : Inv none t) (h : t.Served) (hi' : Inv none (t.publish lock))
    (hv : lock.range.start ≤ lock.range.stop)
    (hadm : ¬ (t.objectLocked lock.object).Admits lock (some (t.nextSeq + 1)))
    (hdead : (t.publish lock).deadlockLocked (t.newWaiter lock) = false) (hkind : t.SameKind lock)
    : (t.publish lock).Served := by
  have hqueued : ∀ w, (t.publish lock).Queued w ↔
      t.Queued w ∨ w = t.newWaiter lock := queued_insertWaiter t.bumped (t.newWaiter lock)
  have hmode : ∀ o p, (t.publish lock).space.mode o p = t.space.mode o p := by
    intro o p
    unfold space modeAt publish
    simp only [held_insertWaiter]
    rfl
  generalize hw : t.newWaiter lock = w at *
  generalize t.publish lock = t' at *
  have hwv : w.lock.range.start ≤ w.lock.range.stop := hw ▸ hv
  have hspace : ∀ x, x ∈ t'.space.queue ↔ x ∈ t.space.queue ∨ x = w.request := by
    intro x
    constructor
    · rintro ⟨y, hy, rfl⟩
      exact ((hqueued y).mp hy).imp (fun hy => ⟨y, hy, rfl⟩) (congrArg Waiter.request)
    · rintro (⟨y, hy, rfl⟩ | rfl)
      · exact ⟨y, (hqueued y).mpr (.inl hy), rfl⟩
      · exact ⟨w, (hqueued w).mpr (.inr rfl), rfl⟩
  have hblocks : ∀ y o, t.space.Blocks Clash y o → t'.space.Blocks Clash y o :=
    fun y o hb => hb.enqueue hmode fun x hx => (hspace x).mpr (.inl hx)
  refine ⟨?_, ?_, ?_⟩
  · apply h.acyclic.enqueue _ hmode hspace
    · intro b hb hreach
      apply Bool.eq_false_iff.mp hdead
      refine (deadlockLocked_iff t' w).mpr ⟨b, (space_blocks_iff hi' hwv b).mp (hblocks _ b hb), ?_⟩
      apply Relation.ReflTransGen.mono _ _ _ hreach
      rintro a c ⟨_, ⟨y, hy, rfl⟩, ha, hc⟩
      refine (mem_ownerBlockers hi' w a c).mpr ⟨y, (hqueued y).mpr (.inl hy), ?_, ha, ?_⟩
      · rintro rfl
        exact absurd (hi.seq_lt hy) (by rw [← hw]; exact lt_irrefl _)
      · exact (space_blocks_iff hi' (hi.queued_valid hy) c).mp (hblocks _ c hc)
    · rintro _ ⟨y, hy, rfl⟩
      rw [← hw]
      exact hi.seq_lt hy
  · intro y y' hy hy' ho hk hov
    subst hw
    rcases (hqueued y).mp hy with hy | rfl
    · rcases (hqueued y').mp hy' with hy' | rfl
      · exact h.uniform y y' hy hy' ho hk hov
      · exact hkind y hy ho hk hov
    · rcases (hqueued y').mp hy' with hy' | rfl
      · rw [overlaps_comm] at hov
        exact (hkind y' hy' ho.symm hk.symm hov).symm
      · rfl
  · rintro y ⟨hy, had⟩
    rw [← eligible_request_iff hi' (hi'.queued_valid hy)] at had
    have had' : t.space.Eligible Clash y.request := fun o hb => had o (hblocks _ o hb)
    rw [eligible_request_iff hi (hi'.queued_valid hy)] at had'
    rcases (hqueued y).mp hy with hyq | rfl
    · exact h.served y ⟨hyq, had'⟩
    · subst hw
      exact hadm had'

theorem Served.sameLocks (hi : Inv none t) (hi' : Inv none t') (h : t.Served)
    (hs : SameLocks t t') : t'.Served := by
  have hqueued : ∀ w, t'.Queued w ↔ t.Queued w := fun w => (hs.queue w.lock.object).mem_iff
  have hspace : t'.space = t.space := space_congr hs.records hqueued
  refine ⟨hspace ▸ h.acyclic, h.uniform.mono fun w hw => (hqueued w).mp hw, ?_⟩
  rintro w ⟨hq, had⟩
  have hv := hi'.queued_valid hq
  rw [← eligible_request_iff hi' hv, hspace, eligible_request_iff hi hv] at had
  exact h.served w ⟨(hqueued w).mp hq, had⟩

/-- A call to `beginWait` whose request overlaps only requests of its own type of the same owner
leaves the table served. -/
theorem Served.beginWait (hg : t.Good) (h : t.Served) (hkind : t.SameKind lock) :
    (t.beginWait lock).1.Served := by
  have hbumped : SameCore t t.bumped :=
    ⟨fun _ => rfl, fun _ _ => rfl, rfl, rfl, rfl, rfl, rfl, Nat.le_succ _, rfl, rfl⟩
  have hpublish : ∀ {t : LockTable}, t.Served → ∀ w err, (t.publishSettled w err).Served :=
    fun h _ _ => ⟨h.acyclic, h.uniform, h.served⟩
  have hspec := beginWait_spec hg lock
  generalize t.beginWait lock = result at hspec ⊢
  cases hspec with
  | failed err hne => exact h
  | limited => exact h.same hbumped
  | refused hv hadm => exact hpublish (h.same hbumped) _ _
  | granted hv hs hlive hadm hlim =>
    have hperform := (h.same hbumped).acquire hg.bumped (fun _ => hg.inv.seq_lt) hv hs hadm hlim
      hkind.keepsCoverage [⟨lock, some (t.nextSeq + 1), t.objectLocked lock.object⟩]
    exact hpublish (hperform.same (sameCore_prune _ _)) _ _
  | queued hv hs hlive hadm hmax hper hdead =>
    exact h.enqueue hg.inv (hg.inv.enqueue_new hv hs hmax hper) hv hadm hdead hkind
  | deadlock hv hs hlive hadm hmax hper hdead =>
    have hi := hg.inv.enqueue_new hv hs hmax hper
    have hi' := hi.retire (t.queued_publish lock) (some .deadlock)
    have h' := (h.same hbumped).sameLocks hg.inv.bumped hi' (sameLocks_insert_retire hi _)
    refine Served.same ?_ (sameCore_prune _ _)
    exact wakeEligible_served hi' (idle_retire (hg.idle_publish lock) _ _) h'.acyclic h'.uniform
      fun w hw => absurd hw (h'.served w)

/-- A cancelled `await` leaves the table served. -/
theorem Served.await (hg : t.Good) (h : t.Served) (seq : Nat) (err : LockError) :
    (t.await seq err).Served := by
  have hspec := await_spec hg seq err
  generalize t.await seq err = result at hspec ⊢
  cases hspec with
  | settled => exact h
  | withdrawn w hq hseq => exact (h.withdraw hg hq _).same (sameCore_prune _ _)

/-- An empty queue has nothing to serve. -/
theorem served_of_empty (h : ∀ w, ¬ t.Queued w) : t.Served := by
  refine ⟨?_, fun w _ hw => absurd hw (h w), fun w hw => h w hw.1⟩
  intro a ha
  obtain ⟨_, ⟨_, ⟨w, hw, _⟩, _⟩, _⟩ := Relation.TransGen.head'_iff.mp ha
  exact h w hw

/-- Cascades over several objects serve every ready waiter of the touched spans. -/
theorem wakeTouched_served (touched : Assoc ObjectKey LockRange) (keys : List ObjectKey)
    (hi : Inv none t) (hidle : t.Idle) (hac : t.space.Acyclic Clash)
    (huni : t.Uniform)
    (hspan : ∀ w, t.Ready w → w.lock.object ∈ keys ∧
      ∃ span, touched.lookup w.lock.object = some span ∧ overlaps w.lock.range span = true) :
    (keys.foldl (wakeTouched touched) t).Served := by
  induction keys generalizing t with
  | nil => exact ⟨hac, huni, fun w hw => List.not_mem_nil (hspan w hw).1⟩
  | cons k ks ih =>
    rw [List.foldl_cons]
    cases hk : touched.lookup k with
    | none =>
      have heq : wakeTouched touched t k = t := by
        unfold wakeTouched
        rw [hk]
      rw [heq]
      refine ih hi hidle hac huni fun w hw => ?_
      obtain ⟨hmem, span, hs, hov⟩ := hspan w hw
      refine ⟨(List.mem_cons.mp hmem).resolve_left ?_, span, hs, hov⟩
      rintro rfl
      simp [hk] at hs
    | some span =>
      have heq : wakeTouched touched t k = t.wakeEligibleLocked k span := by
        unfold wakeTouched
        rw [hk]
      obtain ⟨h1, h2, _⟩ := wakeEligible_spec k span hi hidle
      obtain ⟨h3, h4, h5⟩ := wakeEligible_serves hi hidle hac huni k span fun w hw hwk => by
        obtain ⟨_, span', hs, hov⟩ := hspan w hw
        rw [hwk, hk] at hs
        exact Option.some.inj hs ▸ hov
      rw [heq]
      refine ih h1 h2 h3 h4 fun w hw => ?_
      obtain ⟨hw, hne⟩ := h5 w hw
      obtain ⟨hmem, hrest⟩ := hspan w hw
      exact ⟨(List.mem_cons.mp hmem).resolve_left hne, hrest⟩

/-- Releasing a session leaves the table served. -/
theorem Served.releaseSession (hg : t.Good) (h : t.Served) (id : SessionID) (hint : List ObjectKey) :
    (t.releaseSession id hint).Served := by
  cases hs : t.sessions.lookup id with
  | none =>
    unfold LockTable.releaseSession
    rw [hs]
    exact h
  | some s =>
    have hi := hg.inv
    obtain ⟨hrel, hi', hqid, _⟩ := releaseRecords_spec hg hs
    rw [releaseSession_eq hs]
    generalize t.releaseRecords id s = st at *
    have hrec : LockSpace.Recedes t.space st.1.space := by
      apply space_recedes hi hi' hrel.queue_sub
      · rintro k owner ty x ⟨l, hl, hrest⟩
        exact ⟨l, hrel.held_sub k l hl, hrest⟩
      · rintro w hw x hx ⟨l, hl, ho, hrest⟩
        refine ⟨l, not_not.mp fun hgone => ?_, ho, hrest⟩
        exact hqid w hw (ho ▸ (hrel.held_gone _ l hl hgone).1)
    have hspanned : ∀ w, st.1.Ready w → ∃ r, Spanned st.2 w.lock.object r ∧
        overlaps w.lock.range r = true := by
      rintro w ⟨hq, had⟩
      rcases admits_or_of_recedes hi hi' hrec hq had with
        had | ⟨x, hx, o, ty, ⟨l, hl, hlo, hty, hxl⟩, hn⟩ | ⟨w', hw', hgone, hobj, hov⟩
      · exact absurd ⟨hrel.queue_sub w hq, had⟩ (h.served w)
      · have hgone := hrel.held_gone _ l hl fun hl' => hn ⟨l, hl', hlo, hty, hxl⟩
        refine ⟨l.range, hgone.2, ?_⟩
        rw [LockRange.mem_iff] at hx hxl
        exact overlaps_iff.mpr ⟨by omega, by omega⟩
      · exact ⟨w'.lock.range, hobj ▸ (hrel.queue_gone w' hw' hgone).2, hov⟩
    refine Served.same ?_ (sameCore_prune_all _ _)
    apply wakeTouched_served st.2 (arrange hint st.2.keys) hi' hrel.idle
    · exact h.acyclic.mono fun a b => hrec.waitsFor Clash.mono
    · exact h.uniform.mono hrel.queue_sub
    intro w hw
    obtain ⟨r, ⟨span, hs, hin⟩, hov⟩ := hspanned w hw
    refine ⟨?_, span, hs, overlaps_within hov hin⟩
    rw [(arrange_perm _ _ (AList.keys_nodup _)).mem_iff, Assoc.mem_keys_iff]
    exact ⟨span, hs⟩

/-- The owner of the call keeps the coverage its own queued requests count on, and queues no
overlapping requests of different types. -/
def Calm (t : LockTable) : Op → Prop
  | .set lock => t.KeepsCoverage lock
  | .beginWait lock => t.SameKind lock
  | .unlock object owner r => t.KeepsClear object owner r
  | _ => True

/-- Tables reached from a new one by calm calls. -/
inductive CalmReachable : LockTable → Prop
  | new {maxRecords maxPerSession : Nat} {now : Int} {t : LockTable}
      (h : newLockTable maxRecords maxPerSession now = some t) : CalmReachable t
  | step {t : LockTable} (op : Op) (h : CalmReachable t) (hc : t.Calm op) :
      CalmReachable (t.exec op)

/-- A calm call leaves the table served. -/
theorem Served.exec (hg : t.Good) (h : t.Served) {op : Op} (hc : t.Calm op) :
    (t.exec op).Served := by
  cases op with
  | registerSession id expires =>
    change (t.registerSession id expires).Served
    unfold registerSession
    split
    · exact h
    · exact ⟨h.acyclic, h.uniform, h.served⟩
  | renew | tick => exact ⟨h.acyclic, h.uniform, h.served⟩
  | set lock => exact h.set hg hc
  | beginWait lock => exact h.beginWait hg hc
  | await seq err => exact h.await hg seq err
  | unlock object owner r => exact h.unlock hg hc
  | interruptWaiters err => exact served_of_empty (interruptWaiters_spec hg err).2.1
  | releaseSession id hint => exact h.releaseSession hg id hint

theorem CalmReachable.reachable (h : CalmReachable t) : Reachable t := by
  induction h with
  | new h => exact .new h
  | step op _ _ ih => exact ih.step op

/-- Every table of a calm run is served. -/
theorem CalmReachable.served (h : CalmReachable t) : t.Served := by
  induction h with
  | new h =>
    apply served_of_empty
    intro w hw
    unfold newLockTable at h
    split at h
    · simp at h
    · cases h
      exact absurd hw List.not_mem_nil
  | step op hr hc ih => exact ih.exec hr.reachable.good hc

/-- The owner that makes the call. -/
def Op.owner : Op → Option LockOwner
  | .set lock | .beginWait lock => some lock.owner
  | .unlock _ owner _ => some owner
  | _ => none

/-- No owner acts while a request of its own is queued, as when every owner is a single
thread. -/
def Undisturbed (t : LockTable) : List Op → Prop
  | [] => True
  | op :: ops => (∀ w ∈ t.allWaiters, some w.lock.owner ≠ op.owner) ∧ (t.exec op).Undisturbed ops

instance Undisturbed.decidable : ∀ (t : LockTable) (ops : List Op), Decidable (t.Undisturbed ops)
  | _, [] => .isTrue trivial
  | t, op :: ops =>
    @instDecidableAnd _ _ _ (Undisturbed.decidable (t.exec op) ops)

/-- Owners that act only while nothing of theirs is queued are calm. -/
theorem CalmReachable.run (h : CalmReachable t) {ops : List Op} (hu : t.Undisturbed ops) :
    CalmReachable (t.run ops) := by
  induction ops generalizing t with
  | nil => exact h
  | cons op ops ih =>
    obtain ⟨hop, hrest⟩ := hu
    have hown : ∀ w, t.Queued w → some w.lock.owner ≠ op.owner :=
      fun w hw => hop w ((mem_allWaiters h.reachable.good.inv w).mpr hw)
    refine ih (h.step op ?_) hrest
    cases op with
    | set | beginWait | unlock => exact fun w hw ho => absurd (congrArg some ho) (hown w hw)
    | _ => trivial

theorem calmReachable_small : CalmReachable small := @CalmReachable.new 8 4 0 small rfl

/-- Along calm runs no queued request could be granted, whether its lease is live or not. -/
theorem calm_waiter_not_eligible {t : LockTable} (h : CalmReachable t) {w : Waiter}
    (hq : t.Queued w) :
    waiterEligibleLocked (t.objects.lookup w.lock.object) w = false := by
  have hi := h.reachable.good.inv
  have hobj : (t.objects.lookup w.lock.object).getD .empty = t.objectLocked w.lock.object := rfl
  rw [← Bool.not_eq_true, waiterEligibleLocked_getD _ (hi.queued_valid hq), hobj,
    waiterEligibleLocked_iff (hi.object w.lock.object).indexed]
  exact fun had => h.served.served w ⟨hq, had⟩

/-- A reader queued behind a writer that releases bytes beyond the reader's. -/
def readerWaits : LockTable :=
  small.run [.registerSession 1 10, .registerSession 2 10, .set (request 1 .write 0 9),
    .beginWait (request 2 .read 0 4), .unlock 7 (process 1) (bytes 3 9)]

/-- The reader of bytes 0 to 4 is still blocked by the writer's bytes 0 to 2. -/
theorem readerWaits_not_eligible : readerWaits.Queued ⟨request 2 .read 0 4, 1⟩ ∧
      waiterEligibleLocked (readerWaits.objects.lookup 7) ⟨request 2 .read 0 4, 1⟩ = false := by
  have hq : readerWaits.Queued ⟨request 2 .read 0 4, 1⟩ := by decide +kernel
  exact ⟨hq, calm_waiter_not_eligible (calmReachable_small.run (by decide +kernel)) hq⟩

/-- Owner 2 releases byte 1 under its queued request for bytes 1 and 2, behind the request of
owner 1 for byte 1. When owner 3 frees byte 0, the older request of owner 1 takes byte 1 too. -/
def coveredWaiter : LockTable :=
  small.run [.registerSession 1 10, .registerSession 2 10, .registerSession 3 10,
    .set (request 3 .write 0 0), .set (request 3 .write 2 2), .set (request 2 .write 1 1),
    .beginWait (request 1 .write 0 1), .beginWait (request 2 .write 1 2),
    .beginWait (request 1 .write 1 1), .unlock 7 (process 2) (bytes 1 1),
    .unlock 7 (process 3) (bytes 0 0)]

/-- The second request of owner 1 stays queued although it could be granted: nothing woke it. -/
theorem lost_wakeup_coveredWaiter :
    Reachable coveredWaiter ∧ coveredWaiter.Queued ⟨request 1 .write 1 1, 3⟩ ∧
      coveredWaiter.leaseLive (process 1).session = true ∧
      waiterEligibleLocked (coveredWaiter.objects.lookup 7) ⟨request 1 .write 1 1, 3⟩ = true := by
  refine ⟨reachable_small.run _, ?_, ?_, ?_⟩
  · decide +kernel
  · decide +kernel
  · decide +kernel

/-- Along calm runs no owners wait for each other in a circle. -/
theorem calm_waitsFor_acyclic {t : LockTable} (h : CalmReachable t) (owner : LockOwner) :
    ¬ Relation.TransGen t.WaitsFor owner owner := by
  intro hcycle
  apply h.served.acyclic owner
  refine Relation.TransGen.mono (fun a b hab => ?_) _ _ hcycle
  exact (waitsFor_iff h.reachable.good.inv a b).mpr hab

/-- Owner 2 waits for owner 1 in the table of the blocked reader, and not conversely. -/
theorem readerWaits_acyclic : readerWaits.WaitsFor (process 2) (process 1) ∧
      ¬ Relation.TransGen readerWaits.WaitsFor (process 1) (process 1) := by
  have hedge : readerWaits.Queued ⟨request 2 .read 0 4, 1⟩ ∧
      process 1 ∈ readerWaits.blockersLocked ⟨request 2 .read 0 4, 1⟩ := by decide +kernel
  refine ⟨⟨_, hedge.1, rfl, hedge.2⟩, ?_⟩
  exact calm_waitsFor_acyclic (calmReachable_small.run (by decide +kernel)) _

/-- Owner 2 holds bytes 0 and 1 and waits for bytes 1 and 2, behind owner 1 waiting for bytes
0 and 1; then it releases byte 1. -/
def selfRelease : LockTable :=
  small.run [.registerSession 1 10, .registerSession 2 10, .registerSession 3 10,
    .set (request 2 .write 0 1), .set (request 3 .write 2 2), .beginWait (request 1 .write 0 1),
    .beginWait (request 2 .write 1 2), .unlock 7 (process 2) (bytes 1 1)]

/-- The release makes owner 2 wait for owner 1, which waits for owner 2. -/
theorem deadlock_selfRelease : Reachable selfRelease ∧
      Relation.TransGen selfRelease.WaitsFor (process 1) (process 1) := by
  have hfirst : selfRelease.Queued ⟨request 1 .write 0 1, 1⟩ ∧
      process 2 ∈ selfRelease.blockersLocked ⟨request 1 .write 0 1, 1⟩ := by decide +kernel
  have hsecond : selfRelease.Queued ⟨request 2 .write 1 2, 2⟩ ∧
      process 1 ∈ selfRelease.blockersLocked ⟨request 2 .write 1 2, 2⟩ := by decide +kernel
  have h12 : selfRelease.WaitsFor (process 1) (process 2) := ⟨_, hfirst.1, rfl, hfirst.2⟩
  have h21 : selfRelease.WaitsFor (process 2) (process 1) := ⟨_, hsecond.1, rfl, hsecond.2⟩
  exact ⟨reachable_small.run _, .tail (.single h12) h21⟩

end LockTable
end PortableFS.Locks
