import PortableFS.Auth.VolumeCap

/-!
# Single use of volume capabilities

An authorizer keeps a spent nonce until the second its capability names as its end. Without a
clock skew the validity window closes at the same second, so a kept nonce covers the whole
window. With a skew the window stays open longer than the nonce is kept, and a capability can be
spent twice.
-/

namespace PortableFS.VolumeCap

open Base ProductAuth SlotHeap
open List hiding Vector

variable {a : Authorizer} {w : Wire} {s s' : SpentNonces} {t t' now limit expires : ℤ}
  {nonce : String} {c : Claims} {call : Call} {calls : List (ℤ × Call)}

/-- The queue is a heap of the nonces that are present, each once. -/
structure SpentNonces.WellFormed (s : SpentNonces) : Prop where
  heap : IsHeap NonceExpiry.expires s.expiry
  nodup : (s.expiry.map NonceExpiry.nonce).Nodup
  present : ∀ nonce, nonce ∈ s.present ↔ nonce ∈ s.expiry.map NonceExpiry.nonce

/-- The entries that have not expired. -/
def SpentNonces.live (s : SpentNonces) (now : ℤ) : List NonceExpiry :=
  s.expiry.filter fun entry => decide (now < entry.expires)

theorem wellFormed_empty : SpentNonces.empty.WellFormed where
  heap _ _ := le_rfl
  nodup := nodup_nil
  present _ := by simp [SpentNonces.empty]

variable {entry : NonceExpiry}

theorem SpentNonces.mem_live : entry ∈ s.live now ↔ entry ∈ s.expiry ∧ now < entry.expires := by
  simp [SpentNonces.live]

theorem SpentNonces.WellFormed.card_present (h : s.WellFormed) :
    s.present.card = s.expiry.length := by
  have heq : s.present = (s.expiry.map NonceExpiry.nonce).toFinset := by
    ext nonce
    rw [h.present, mem_toFinset]
  rw [heq, toFinset_card_of_nodup h.nodup, length_map]

private theorem removeAt_zero_perm (first : NonceExpiry) (rest : List NonceExpiry) :
    (removeAt NonceExpiry.expires (first :: rest) 0).Perm rest := by
  have h := @removeAt_perm _ _ _ NonceExpiry.expires (first :: rest) first _ mem_cons_self
  rwa [idxOf_cons_self, erase_cons_head] at h

private theorem SpentNonces.WellFormed.pop {first : NonceExpiry} {rest : List NonceExpiry}
    (h : s.WellFormed) (hs : s.expiry = first :: rest) :
    (SpentNonces.mk (s.present.erase first.nonce)
      (removeAt NonceExpiry.expires s.expiry 0)).WellFormed := by
  have hperm := removeAt_zero_perm first rest
  have hnodup := h.nodup
  rw [hs, map_cons, nodup_cons] at hnodup
  refine ⟨h.heap.removeAt (by rw [hs]; exact Nat.zero_lt_succ _), ?_, fun nonce => ?_⟩
  · rw [hs]
    exact (hperm.map _).nodup_iff.mpr hnodup.2
  rw [hs, (hperm.map _).mem_iff, Finset.mem_erase, h.present, hs, map_cons, mem_cons]
  constructor
  · rintro ⟨hne, rfl | hmem⟩
    · exact absurd rfl hne
    · exact hmem
  · intro hmem
    exact ⟨fun heq => hnodup.1 (heq ▸ hmem), .inr hmem⟩

/-- The eviction keeps exactly the entries that have not expired. -/
theorem SpentNonces.WellFormed.evict (h : s.WellFormed) (now : ℤ) {n : ℕ}
    (hn : s.expiry.length ≤ n) :
    (s.evict now n).WellFormed ∧ (s.evict now n).expiry.Perm (s.live now) := by
  -- the heap's first entry is its earliest, so the loop stops at the first live one
  induction n generalizing s with
  | zero =>
    have hnil := eq_nil_of_length_eq_zero (Nat.le_zero.mp hn)
    refine ⟨h, ?_⟩
    rw [SpentNonces.evict, SpentNonces.live, hnil]
    exact List.Perm.nil
  | succ n ih =>
    cases hs : s.expiry with
    | nil =>
      have heq : s.evict now (n + 1) = s := by simp [SpentNonces.evict, hs]
      rw [heq, SpentNonces.live, hs]
      exact ⟨h, List.Perm.nil⟩
    | cons first rest =>
      by_cases hlt : now < first.expires
      · have heq : s.evict now (n + 1) = s := by simp [SpentNonces.evict, hs, hlt]
        have hall : s.live now = s.expiry := by
          apply filter_eq_self.mpr
          intro entry hmem
          have hle := h.heap.head_le (by rw [hs]; rfl) hmem
          exact decide_eq_true (hlt.trans_le hle)
        rw [heq, hall]
        exact ⟨h, List.Perm.refl _⟩
      · have heq : s.evict now (n + 1) = SpentNonces.evict now n
            ⟨s.present.erase first.nonce, removeAt NonceExpiry.expires s.expiry 0⟩ := by
          simp [SpentNonces.evict, hs, hlt]
        have hperm := removeAt_zero_perm first rest
        obtain ⟨hwf, hlive⟩ := ih (h.pop hs) (by
          rw [hs, hperm.length_eq]
          rw [hs, length_cons] at hn
          omega)
        rw [heq]
        refine ⟨hwf, hlive.trans ?_⟩
        have hdrop : s.live now = rest.filter fun entry => decide (now < entry.expires) := by
          rw [SpentNonces.live, hs, filter_cons_of_neg (by simpa using hlt)]
        rw [hdrop, SpentNonces.live, hs]
        exact hperm.filter _

/-- What spending a nonce decides from the entries that have not expired. -/
def verdict (nonce : String) (limit : ℤ) (live : List NonceExpiry) : Except Error Unit :=
  if nonce ∈ live.map NonceExpiry.nonce then .error .replayed
  else if limit ≤ live.length then .error .noNonceCapacity
  else .ok ()

/-- The entries after a verdict. -/
def settled (entry : NonceExpiry) (live : List NonceExpiry) : Except Error Unit → List NonceExpiry
  | .ok () => entry :: live
  | .error _ => live

variable {live : List NonceExpiry} {live' : List NonceExpiry}

theorem verdict_congr (h : live.Perm live') :
    verdict nonce limit live = verdict nonce limit live' := by
  simp only [verdict, (h.map _).mem_iff, h.length_eq]

theorem settled_perm (h : live.Perm live')
    (r : Except Error Unit) : (settled entry live r).Perm (settled entry live' r) := by
  cases r with
  | error err => exact h
  | ok u => exact h.cons entry

/-- Spending a nonce is a verdict on the entries that have not expired. -/
theorem SpentNonces.WellFormed.spend (h : s.WellFormed) (nonce : String) (expires now limit : ℤ) :
    (s.spend nonce expires now limit).1 = verdict nonce limit (s.live now) ∧
      (s.spend nonce expires now limit).2.WellFormed ∧
      (s.spend nonce expires now limit).2.expiry.Perm
        (settled ⟨nonce, expires⟩ (s.live now) (verdict nonce limit (s.live now))) := by
  obtain ⟨hwf, hperm⟩ := h.evict now le_rfl
  unfold SpentNonces.spend
  dsimp only
  rw [← verdict_congr hperm]
  have hpresent := hwf.present nonce
  have hcard := hwf.card_present
  split
  · next hmem =>
    rw [verdict, if_pos (hpresent.mp hmem)]
    exact ⟨rfl, hwf, hperm⟩
  next hmem =>
  have hmap := fun hin => hmem (hpresent.mpr hin)
  split
  · next hfull =>
    rw [hcard] at hfull
    rw [verdict, if_neg hmap, if_pos hfull]
    exact ⟨rfl, hwf, hperm⟩
  next hfull =>
  rw [hcard] at hfull
  rw [verdict, if_neg hmap, if_neg hfull]
  have hpush := @push_perm _ _ _ NonceExpiry.expires
    (s.evict now s.expiry.length).expiry ⟨nonce, expires⟩
  refine ⟨rfl, ⟨hwf.heap.push _, ?_, fun other => ?_⟩, hpush.trans (hperm.cons _)⟩
  · exact (hpush.map _).nodup_iff.mpr (nodup_cons.mpr ⟨hmap, hwf.nodup⟩)
  · rw [(hpush.map _).mem_iff, map_cons, mem_cons, Finset.mem_insert, hwf.present]

/-- What a call does: it is answered without the nonces, or it spends one. -/
theorem step_cases (a : Authorizer) (w : Wire) (now : ℤ) (call : Call) :
    (∃ outcome, (∀ s, a.step w s now call = (outcome, s)) ∧ acceptedClaims w call outcome = none) ∨
    ∃ volumeID token peer c authorization, call = .verify volumeID token peer ∧
      a.examine w volumeID token peer none now = some (c, authorization) ∧
      ∀ s, a.step w s now call =
        ((s.spend c.nonce (Clock.ofUnix c.expires) now a.maxRetainedNonces).1.map
            fun _ => authorization,
          (s.spend c.nonce (Clock.ofUnix c.expires) now a.maxRetainedNonces).2) := by
  cases call with
  | verify volumeID token peer =>
    cases hex : a.examine w volumeID token peer none now with
    | none =>
      refine .inl ⟨.error .invalid, fun s => ?_, rfl⟩
      simp only [Authorizer.step, Authorizer.verify, hex]
    | some p =>
      obtain ⟨c, authorization⟩ := p
      refine .inr ⟨volumeID, token, peer, c, authorization, rfl, hex, fun s => ?_⟩
      simp only [Authorizer.step, Authorizer.verify, hex]
      rcases s.spend c.nonce (Clock.ofUnix c.expires) now a.maxRetainedNonces with ⟨_ | _, s'⟩ <;>
        rfl
  | verifyReauthorization volumeID sessionID sequence token peer =>
    exact .inl ⟨_, fun s => rfl, rfl⟩

/-- What an examination that succeeds has found about the claims. -/
theorem examine_eq_some {volumeID : String} {token : List UInt8} {peer : Vector UInt8 32}
    {session : Option (Vector UInt8 16 × UInt64)} {authorization : Authorization}
    (h : a.examine w volumeID token peer session now = some (c, authorization)) :
    inspect w token = some c ∧ 0 < a.maxLifetime ∧
      windowOpen now a.clockSkew c.notBefore c.expires = true ∧
      lifetimeBounded now a.maxLifetime c.notBefore c.expires = true := by
  unfold Authorizer.examine at h
  split at h
  · cases h
  next hready =>
  obtain ⟨⟨claims, payload, signature⟩, hdecode, h⟩ := Option.bind_eq_some_iff.mp h
  dsimp only at h
  split at h
  · cases h
  split at h
  · cases h
  split at h
  · cases h
  split at h
  · cases h
  split at h
  · cases h
  next hwindow =>
  split at h
  · cases h
  next hlifetime =>
  obtain ⟨access, haccess, h⟩ := Option.bind_eq_some_iff.mp h
  split at h
  · cases h
  split at h
  · cases h
  obtain ⟨rfl, -⟩ := Prod.mk.inj (Option.some.inj h)
  simp only [Authorizer.ready, decide_eq_true_eq, not_not] at hready
  exact ⟨by rw [inspect, hdecode]; rfl, hready.2.2.2.1, not_not.mp hwindow, not_not.mp hlifetime⟩

/-- Every step keeps the queue well formed. -/
theorem SpentNonces.WellFormed.step (h : s.WellFormed) (now : ℤ) (call : Call) :
    (a.step w s now call).2.WellFormed := by
  obtain ⟨outcome, heq, -⟩ | ⟨_, _, _, c, authorization, -, -, heq⟩ := step_cases a w now call
  · rw [heq]
    exact h
  · rw [heq]
    exact (h.spend _ _ _ _).2.1

/-- The nonce of a capability is in the queue until the capability ends, which the clock can
express. -/
structure Kept (t : ℤ) (s : SpentNonces) (c : Claims) : Prop where
  low : -2 ^ 62 ≤ c.expires.toInt
  high : c.expires.toInt < 2 ^ 62
  entry : t < Clock.ofUnix c.expires → ⟨c.nonce, Clock.ofUnix c.expires⟩ ∈ s.expiry

theorem mem_settled_of_mem {kept : NonceExpiry}
    (h : kept ∈ live) (r : Except Error Unit) : kept ∈ settled entry live r := by
  cases r with
  | error err => exact h
  | ok u => exact mem_cons_of_mem _ h

/-- A later step keeps what is kept. -/
theorem Kept.step (h : Kept t s c) (hs : s.WellFormed) (ht : t ≤ now) (call : Call) :
    Kept now (a.step w s now call).2 c := by
  refine ⟨h.low, h.high, fun hlt => ?_⟩
  have hmem := h.entry (ht.trans_lt hlt)
  obtain ⟨outcome, heq, -⟩ | ⟨_, _, _, other, authorization, -, -, heq⟩ := step_cases a w now call
  · rw [heq]
    exact hmem
  · rw [heq]
    have hspend := hs.spend other.nonce (Clock.ofUnix other.expires) now a.maxRetainedNonces
    exact hspend.2.2.mem_iff.mpr (mem_settled_of_mem (SpentNonces.mem_live.mpr ⟨hmem, hlt⟩) _)

theorem Kept.mono (h : Kept t s c) (ht : t ≤ t') : Kept t' s c :=
  ⟨h.low, h.high, fun hlt => h.entry (ht.trans_lt hlt)⟩

variable {notBefore ends : Int64}

/-- Without a skew, an open window is the time before the end. -/
theorem windowOpen_zero (h : windowOpen now 0 notBefore ends = true) : Clock.unix now < ends := by
  simp only [windowOpen, decide_eq_true_eq, not_or] at h
  have hzero : (0 : Int64).toInt = 0 := rfl
  rw [hzero, sub_zero] at h
  exact Int64.not_le.mp h.2

/-- The bound on the remaining lifetime keeps the end within reach of the clock. -/
theorem lifetime_bounds {maxLifetime : Int64} (hnow : Clock.InRange now)
    (hmax : 0 < maxLifetime) (hends : Clock.unix now < ends)
    (h : lifetimeBounded now maxLifetime notBefore ends = true) :
    -2 ^ 62 ≤ ends.toInt ∧ ends.toInt < 2 ^ 62 := by
  simp only [lifetimeBounded, decide_eq_true_eq, not_or] at h
  have hunix := Clock.toInt_unix hnow
  have hremain := Int64.le_iff_toInt_le.mp (Int64.not_lt.mp h.2.2)
  have hends' := Int64.lt_iff_toInt_lt.mp hends
  have hpos : 0 < maxLifetime.toInt := Int64.lt_iff_toInt_lt.mp hmax
  have hbillion : (1000000000 : Int64).toInt = 1000000000 := rfl
  have htop := ends.toInt_lt
  have hlife := maxLifetime.toInt_lt
  obtain ⟨hnonneg, hlt⟩ := hnow
  rw [hunix, Clock.second] at hends'
  rw [Int64.toInt_div_of_ne_right _ _ (by decide), hbillion,
    Int.tdiv_eq_ediv_of_nonneg hpos.le, Int64.toInt_sub, hunix, Clock.second,
    Int.bmod_eq_of_le (by omega) (by omega)] at hremain
  omega

/-- An accepted capability was not accepted before while its nonce is kept, and is kept from then
on. -/
theorem accepted_step (hskew : a.clockSkew = 0) (hnow : Clock.InRange now) (hs : s.WellFormed)
    (h : acceptedClaims w call (a.step w s now call).1 = some c) :
    Kept now (a.step w s now call).2 c ∧ ∀ t ≤ now, ¬ Kept t s c := by
  obtain ⟨outcome, heq, hnone⟩ | ⟨volumeID, token, peer, found, authorization, rfl, hex, heq⟩ :=
    step_cases a w now call
  · rw [heq, hnone] at h
    cases h
  obtain ⟨hinspect, hmax, hwindow, hlife⟩ := examine_eq_some hex
  rw [hskew] at hwindow
  have hends := windowOpen_zero hwindow
  obtain ⟨hlow, hhigh⟩ := lifetime_bounds hnow hmax hends hlife
  obtain ⟨hverdict, -, hperm⟩ :=
    hs.spend found.nonce (Clock.ofUnix found.expires) now a.maxRetainedNonces
  rw [heq] at h ⊢
  rw [hverdict] at h
  cases hr : verdict found.nonce a.maxRetainedNonces (s.live now) with
  | error err =>
    rw [hr] at h
    cases h
  | ok u =>
    rw [hr] at h hperm
    obtain rfl : found = c := Option.some.inj (hinspect.symm.trans h)
    refine ⟨⟨hlow, hhigh, fun _ => hperm.mem_iff.mpr mem_cons_self⟩, fun t ht hkept => ?_⟩
    have hlt := (Clock.lt_ofUnix hnow hlow hhigh).mpr hends
    have hlive := SpentNonces.mem_live.mpr ⟨hkept.entry (ht.trans_lt hlt), hlt⟩
    rw [verdict, if_pos (mem_map_of_mem hlive)] at hr
    cases hr

/-- Two queues that no later call tells apart. -/
structure Alike (t : ℤ) (s s' : SpentNonces) : Prop where
  left : s.WellFormed
  right : s'.WellFormed
  live : ∀ t' ≥ t, (s.live t').Perm (s'.live t')

private theorem live_of_perm {l : List NonceExpiry} (h : s.expiry.Perm l) (t : ℤ) :
    (s.live t).Perm (l.filter fun entry => decide (t < entry.expires)) := h.filter _

/-- A call gives like queues the same answer. -/
theorem Alike.step (h : Alike t s s') (ht : t ≤ now) (call : Call) :
    (a.step w s now call).1 = (a.step w s' now call).1 ∧
      Alike now (a.step w s now call).2 (a.step w s' now call).2 := by
  obtain ⟨outcome, heq, -⟩ | ⟨_, _, _, c, authorization, -, -, heq⟩ := step_cases a w now call
  · rw [heq, heq]
    exact ⟨rfl, h.left, h.right, fun t' ht' => h.live t' (ht.trans ht')⟩
  rw [heq, heq]
  obtain ⟨hv, hwf, hp⟩ := h.left.spend c.nonce (Clock.ofUnix c.expires) now a.maxRetainedNonces
  obtain ⟨hv', hwf', hp'⟩ :=
    h.right.spend c.nonce (Clock.ofUnix c.expires) now a.maxRetainedNonces
  have hlive := h.live now ht
  rw [verdict_congr hlive] at hv hp
  refine ⟨by rw [hv, hv'], hwf, hwf', fun t' ht' => ?_⟩
  exact (live_of_perm hp t').trans
    (((settled_perm hlive _).filter _).trans (live_of_perm hp' t').symm)

/-- A refused call leaves a queue like the one it found. -/
theorem alike_of_refused {err : Error} (hs : s.WellFormed)
    (h : (a.step w s now call).1 = .error err) : Alike now (a.step w s now call).2 s := by
  obtain ⟨outcome, heq, -⟩ | ⟨_, _, _, c, authorization, -, -, heq⟩ := step_cases a w now call
  · rw [heq]
    exact ⟨hs, hs, fun _ _ => List.Perm.refl _⟩
  rw [heq] at h ⊢
  obtain ⟨hv, hwf, hp⟩ := hs.spend c.nonce (Clock.ofUnix c.expires) now a.maxRetainedNonces
  rw [hv] at h
  cases hr : verdict c.nonce a.maxRetainedNonces (s.live now) with
  | ok u =>
    rw [hr] at h
    cases h
  | error err =>
    rw [hr] at hp
    refine ⟨hwf, hs, fun t' ht' => ?_⟩
    -- what is live later is live now
    have hsub : ((s.live now).filter fun entry => decide (t' < entry.expires)) = s.live t' := by
      rw [SpentNonces.live, filter_filter]
      apply filter_congr
      intro entry _
      have himp : t' < entry.expires → now < entry.expires := lt_of_le_of_lt ht'
      simp only [Bool.and_eq_left_iff_imp, decide_eq_true_eq]
      exact himp
    rw [← hsub]
    exact live_of_perm hp t'

theorem run_cons (a : Authorizer) (w : Wire) (s : SpentNonces) (now : ℤ) (call : Call)
    (calls : List (ℤ × Call)) :
    a.run w s ((now, call) :: calls) =
      ((a.step w s now call).1 :: (a.run w (a.step w s now call).2 calls).1,
        (a.run w (a.step w s now call).2 calls).2) := rfl

theorem run_append (s : SpentNonces) (first calls : List (ℤ × Call)) : a.run w s (first ++ calls) =
      ((a.run w s first).1 ++ (a.run w (a.run w s first).2 calls).1,
        (a.run w (a.run w s first).2 calls).2) := by
  induction first generalizing s with
  | nil => rfl
  | cons p first ih =>
    obtain ⟨now, call⟩ := p
    rw [cons_append, run_cons, run_cons, ih]
    rfl

theorem length_run (s : SpentNonces) (calls : List (ℤ × Call)) :
    (a.run w s calls).1.length = calls.length := by
  induction calls generalizing s with
  | nil => rfl
  | cons p calls ih =>
    obtain ⟨now, call⟩ := p
    rw [run_cons, length_cons, length_cons, ih]

theorem SpentNonces.WellFormed.run (h : s.WellFormed) (calls : List (ℤ × Call)) :
    (a.run w s calls).2.WellFormed := by
  induction calls generalizing s with
  | nil => exact h
  | cons p calls ih => exact ih (h.step p.1 p.2)

theorem accepted_cons (a : Authorizer) (w : Wire) (s : SpentNonces) (now : ℤ) (call : Call)
    (calls : List (ℤ × Call)) :
    a.accepted w s ((now, call) :: calls) =
      (acceptedClaims w call (a.step w s now call).1).toList ++
        a.accepted w (a.step w s now call).2 calls := by
  unfold Authorizer.accepted
  rw [run_cons, zip_cons_cons, map_cons]
  cases acceptedClaims w call (a.step w s now call).1 with
  | none => exact reduceOption_cons_of_none _
  | some c => exact reduceOption_cons_of_some _ _

theorem Alike.run (h : Alike t s s') (hclock : calls.Pairwise fun p q => p.1 ≤ q.1)
    (ht : ∀ p ∈ calls, t ≤ p.1) : (a.run w s calls).1 = (a.run w s' calls).1 := by
  induction calls generalizing t s s' with
  | nil => rfl
  | cons p calls ih =>
    obtain ⟨now, call⟩ := p
    obtain ⟨hfirst, hclock⟩ := pairwise_cons.mp hclock
    obtain ⟨houtcome, halike⟩ := h.step (ht _ mem_cons_self) call
    rw [run_cons, run_cons, houtcome, ih halike hclock hfirst]

/-- Over a run, what is kept at its start is not accepted again, nothing is accepted twice, and what
was kept or accepted is kept at its end. -/
theorem Kept.run (hskew : a.clockSkew = 0) (hs : s.WellFormed)
    (hclock : calls.Pairwise fun p q => p.1 ≤ q.1) (hrange : ∀ p ∈ calls, Clock.InRange p.1)
    {past : List Claims} (hpast : ∀ c ∈ past, Kept t s c) (ht : ∀ p ∈ calls, t ≤ p.1)
    (htt' : t ≤ t') (ht' : ∀ p ∈ calls, p.1 ≤ t') :
    (a.accepted w s calls).Nodup ∧ (∀ c ∈ past, c ∉ a.accepted w s calls) ∧
      ∀ c ∈ past ++ a.accepted w s calls, Kept t' (a.run w s calls).2 c := by
  induction calls generalizing t s past with
  | nil =>
    refine ⟨nodup_nil, fun c _ => not_mem_nil, fun c hc => ?_⟩
    rw [Authorizer.accepted, zip_nil_left] at hc
    exact (hpast c (by simpa using hc)).mono htt'
  | cons p calls ih =>
    obtain ⟨now, call⟩ := p
    obtain ⟨hfirst, hclock⟩ := pairwise_cons.mp hclock
    have hnow := ht _ mem_cons_self
    have hkept : ∀ c ∈ past, Kept now (a.step w s now call).2 c :=
      fun c hc => (hpast c hc).step hs hnow call
    rw [accepted_cons, run_cons]
    have hwf : (a.step w s now call).2.WellFormed := hs.step now call
    have hrest := fun (later : List Claims)
        (hlater : ∀ c ∈ later, Kept now (a.step w s now call).2 c) => ih hwf hclock
      (fun p hp => hrange p (mem_cons_of_mem _ hp)) hlater hfirst
      (ht' _ mem_cons_self) (fun p hp => ht' p (mem_cons_of_mem _ hp))
    cases hacc : acceptedClaims w call (a.step w s now call).1 with
    | none => exact hrest past hkept
    | some c =>
      obtain ⟨hnew, hfresh⟩ := accepted_step hskew (hrange _ mem_cons_self) hs hacc
      obtain ⟨hnodup, hnot, hend⟩ := hrest (past ++ [c]) (by
        intro other hother
        rcases mem_append.mp hother with hold | hsame
        · exact hkept other hold
        · exact mem_singleton.mp hsame ▸ hnew)
      refine ⟨nodup_cons.mpr ⟨hnot c (by simp), hnodup⟩, fun other hother => ?_, ?_⟩
      · rw [Option.toList_some, singleton_append, mem_cons, not_or]
        refine ⟨fun heq => hfresh t hnow (heq ▸ hpast other hother), hnot other (by simp [hother])⟩
      · simpa using hend

/-- Without a clock skew, and with a clock whose readings are in range and never go back, an attach
capability is accepted at most once, a refused call changes the answer to no other call, and the
nonce of an accepted capability is present for as long as its window is open. -/
theorem capability_single_use (a : Authorizer) (w : Wire) (calls : List (ℤ × Call))
    (hskew : a.clockSkew = 0) (hclock : calls.Pairwise fun p q => p.1 ≤ q.1)
    (hrange : ∀ p ∈ calls, Clock.InRange p.1) :
    (a.accepted w .empty calls).Nodup ∧
      (∀ before after now call err, calls = before ++ (now, call) :: after →
        (a.run w .empty calls).1[before.length]? = some (.error err) →
        (a.run w .empty (before ++ after)).1 = (a.run w .empty calls).1.eraseIdx before.length) ∧
      ∀ c ∈ a.accepted w .empty calls, ∀ t, Clock.InRange t → (∀ p ∈ calls, p.1 ≤ t) →
        windowOpen t a.clockSkew c.notBefore c.expires = true →
        c.nonce ∈ (a.run w .empty calls).2.present := by
  have hstart : ∀ p ∈ calls, 0 ≤ p.1 := fun p hp => (hrange p hp).1
  refine ⟨?_, ?_, ?_⟩
  · have h := @Kept.run a w .empty 0 (2 ^ 63) calls hskew wellFormed_empty hclock hrange []
      (by simp) hstart (by norm_num) (fun p hp => (hrange p hp).2.le)
    exact h.1
  · rintro before after now call err rfl hrefused
    have hwf : (a.run w .empty before).2.WellFormed := wellFormed_empty.run before
    have hlen := @length_run a w .empty before
    rw [run_append, run_cons] at hrefused
    rw [run_append, run_append, run_cons]
    dsimp only at hrefused ⊢
    rw [getElem?_append_right hlen.le, hlen, Nat.sub_self] at hrefused
    have hstep := Option.some.inj hrefused
    have halike := alike_of_refused hwf hstep
    have hafter := (pairwise_append.mp hclock).2.1
    rw [eraseIdx_append_of_length_le hlen.le, hlen, Nat.sub_self, eraseIdx_cons_zero]
    rw [halike.run (pairwise_cons.mp hafter).2 (pairwise_cons.mp hafter).1]
  · intro c hc t hin ht hwindow
    have h := @Kept.run a w .empty (min 0 t) t calls hskew wellFormed_empty hclock hrange []
      (by simp) (fun p hp => (min_le_left _ _).trans (hstart p hp)) (min_le_right _ _) ht
    have hkept := h.2.2 c hc
    rw [hskew] at hwindow
    have hlt := (Clock.lt_ofUnix hin hkept.low hkept.high).mpr (windowOpen_zero hwindow)
    have hwf : (a.run w .empty calls).2.WellFormed := wellFormed_empty.run calls
    exact (hwf.present _).mpr (mem_map_of_mem (hkept.entry hlt))

/-- A capability from second 0 to second 10. -/
def tenSeconds : Claims where
  volumeID := "volume"
  subject := "subject"
  access := ["read"]
  notBefore := 0
  expires := 10
  peerSPKI := []
  nonce := "nonce"
  cellID := ""
  authorityID := ""
  authorityGeneration := 0
  productAuthorization := []
  mountEnrollmentID := ""
  sessionID := []
  sequence := 0

/-- Encodings in which the token `v1.a.b` carries that capability. -/
def tenSecondsWire : Wire where
  encoding := {
    base64 := fun text =>
      if text = [] then some (replicate 32 0)
      else if text = [97] then some [1]
      else some (replicate 64 0)
    encode := id
    signed := fun _ _ _ => true }
  unmarshal _ := some tenSeconds
  unmarshalProduct _ := none
  sha256 _ := Vector.replicate 32 0

/-- A standalone authorizer with lifetimes up to 100 seconds. -/
def standalone (clockSkew : Int64) : Authorizer where
  publicKey := replicate 32 0
  productPublicKey := []
  productIssuer := ""
  productAudience := ""
  authorizationDomain := ""
  owner := ""
  cellID := ""
  authorityID := ""
  authorityGeneration := 0
  clockSkew := clockSkew
  maxLifetime := 100000000000
  maxRetainedNonces := 4

/-- The token is presented at second 5 and at second 11. -/
def presentedTwice : List (ℤ × Call) :=
  [(5 * Clock.second, .verify "volume" [118, 49, 46, 97, 46, 98] (Vector.replicate 32 0)),
    (11 * Clock.second, .verify "volume" [118, 49, 46, 97, 46, 98] (Vector.replicate 32 0))]

theorem capability_single_use_presentedTwice :
    ((standalone 0).accepted tenSecondsWire .empty presentedTwice).Nodup ∧
      (standalone 0).accepted tenSecondsWire .empty presentedTwice = [tenSeconds] := by
  refine ⟨(capability_single_use (standalone 0) tenSecondsWire presentedTwice rfl ?_ ?_).1, ?_⟩
  · decide
  · unfold Clock.InRange
    decide
  · decide

/-- A skew of two seconds lets the capability be spent a second time after its nonce was evicted. -/
theorem capability_spent_twice :
    (standalone 2000000000).accepted tenSecondsWire .empty presentedTwice =
      [tenSeconds, tenSeconds] := by
  decide

/-- However the clock moves and whatever is presented, the nonces that are kept fit the limit. -/
theorem retained_nonces_bounded (a : Authorizer) (w : Wire) (calls : List (ℤ × Call)) :
    (a.run w .empty calls).2.WellFormed ∧
      ((a.run w .empty calls).2.present.card : ℤ) ≤ max 0 a.maxRetainedNonces := by
  refine ⟨wellFormed_empty.run calls, ?_⟩
  suffices hrun : ∀ s : SpentNonces, s.WellFormed → (s.present.card : ℤ) ≤ max 0 a.maxRetainedNonces →
      ((a.run w s calls).2.present.card : ℤ) ≤ max 0 a.maxRetainedNonces from
    hrun .empty wellFormed_empty (le_max_left ..)
  induction calls with
  | nil => exact fun s _ hle => hle
  | cons p calls ih =>
    intro s hwf hle
    rw [run_cons]
    refine ih _ (hwf.step p.1 p.2) ?_
    obtain ⟨outcome, heq, -⟩ | ⟨_, _, _, c, authorization, -, -, heq⟩ := step_cases a w p.1 p.2 <;>
      rw [heq]
    · exact hle
    obtain ⟨-, hwf', hperm⟩ := hwf.spend c.nonce (Clock.ofUnix c.expires) p.1 a.maxRetainedNonces
    have hlive : (s.live p.1).length ≤ s.expiry.length := length_filter_le ..
    rw [hwf.card_present] at hle
    rw [hwf'.card_present, hperm.length_eq, verdict]
    grind [settled]

end PortableFS.VolumeCap
