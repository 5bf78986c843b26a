import PortableFS.Writeback.Wave

/-!
# Histories of an identity

What the events of one identity say: the records accepted, gone and reported since the last drop,
and the wave that is open. Each projection of a history is given by what one more event does to it.
-/

namespace PortableFS.Writeback

open List

/-- The transport reported a wave applied. -/
def Event.isReported : Event → Bool
  | .reported _ _ => true
  | _ => false

/-- Records were dropped. -/
def Event.isDropped : Event → Bool
  | .dropped _ => true
  | _ => false

namespace Trace

/-- The records accepted in a history. -/
def accepted (tr : List Event) : List Record :=
  tr.filterMap fun | .accepted r => some r | _ => none

/-- The records that left in a history. -/
def left (tr : List Event) : List Record :=
  tr.filterMap fun | .left r _ => some r.record | _ => none

/-- The operations reported applied in a history. -/
def reported (tr : List Event) : List Entry :=
  tr.flatMap fun | .reported es _ => es | _ => []

/-- The tokens of the waves formed in a history. -/
def tokens (tr : List Event) : List Nat :=
  tr.flatMap fun | .formed _ es => es.map Entry.token | _ => []

/-- One more event of the part after the last drop. -/
def renew (tr : List Event) : Event → List Event
  | .dropped _ => []
  | e => tr ++ [e]

/-- The part of a history after the last drop. -/
def epoch (tr : List Event) : List Event := tr.foldl renew []

/-- What an event makes of the open wave. -/
def turn (wave : Option (List Entry)) : Event → Option (List Entry)
  | .formed _ es => some es
  | .reported _ _ => none
  | .dropped _ => none
  | _ => wave

/-- The wave that was formed and neither reported nor dropped. -/
def openWave (tr : List Event) : Option (List Entry) := tr.foldl turn none

variable (tr : List Event)

theorem epoch_append (e : Event) : epoch (tr ++ [e]) = renew (epoch tr) e := by
  unfold epoch
  rw [foldl_append]
  rfl

variable {e : Event}

/-- Only a drop ends an epoch. -/
theorem epoch_append_of_ne (h : ∀ report, e ≠ .dropped report) :
    epoch (tr ++ [e]) = epoch tr ++ [e] := by
  rw [epoch_append]
  cases e with
  | dropped report => exact absurd rfl (h report)
  | _ => rfl

theorem openWave_append (e : Event) : openWave (tr ++ [e]) = turn (openWave tr) e := by
  unfold openWave
  rw [foldl_append]
  rfl

theorem accepted_append (tr tr' : List Event) :
    accepted (tr ++ tr') = accepted tr ++ accepted tr' := filterMap_append

theorem left_append (tr tr' : List Event) : left (tr ++ tr') = left tr ++ left tr' :=
  filterMap_append

theorem reported_append (tr tr' : List Event) :
    reported (tr ++ tr') = reported tr ++ reported tr' := flatMap_append

theorem tokens_append (tr tr' : List Event) : tokens (tr ++ tr') = tokens tr ++ tokens tr' :=
  flatMap_append

theorem epoch_suffix : epoch tr <:+ tr := by
  induction tr using List.reverseRecOn with
  | nil => exact suffix_rfl
  | append_singleton tr e ih =>
    rw [epoch_append]
    cases e with
    | dropped report => exact nil_suffix
    | _ =>
      obtain ⟨before, hb⟩ := ih
      exact ⟨before, by rw [renew, ← append_assoc, hb]; simp⟩

/-- The cause lets the record leave: the watermarks passed its applied sequence, or it was applied
and an `FSYNC` covered it. A drop takes every record. -/
def Admits (r : Retained) : Cause → Prop
  | .watermark visible durable => r.state = .durable ∧ r.applied ≤ visible ∧ r.applied ≤ durable
  | .fsync cut => r.state ≠ .accepted ∧ r.record.seq ≤ cut.sequence
  | .dropped _ => True

/-- The applied sequence of a record is one that the transport reported. -/
def Stamped (tr : List Event) (r : Retained) : Prop :=
  r.state ≠ .accepted → ∃ es, Event.reported es r.applied ∈ tr

/-- What the next event of a history may be: a wave is formed only when none is open, it carries
what comes next of the records accepted up to its cut, and its tokens are new; what is offered or
reported is the open wave; a record leaves for a reason, and a drop leaves none behind. -/
def Next (payload : Nat) (tr : List Event) : Event → Prop
  | .formed cut es =>
    openWave tr = none ∧ WaveShape payload cut es ∧ es.flatMap Entry.pieces <+:
      (((accepted (epoch tr)).filter fun r => decide (r.seq ≤ cut.sequence)).flatMap
        Record.pieces).drop ((reported (epoch tr)).flatMap Entry.pieces).length ∧
    es ≠ [] ∧ (es.map Entry.token).Pairwise (· < ·) ∧
    ∀ t ∈ tokens tr, ∀ e ∈ es, t < e.token
  | .offered es => openWave tr = some es
  | .reported es _ => openWave tr = some es
  | .left r cause => Admits r cause ∧ Stamped tr r
  | .dropped _ => accepted (epoch tr) = left (epoch tr)
  | .accepted _ => True

/-- Every event of the history was a possible next one. -/
def Disciplined (payload : Nat) (tr : List Event) : Prop :=
  ∀ before e after, tr = before ++ e :: after → Next payload before e

theorem Disciplined.nil (payload : Nat) : Disciplined payload [] := by
  intro before e after h
  simp at h

variable {payload : Nat}

theorem Disciplined.append {tr : List Event} (h : Disciplined payload tr)
    (he : Next payload tr e) : Disciplined payload (tr ++ [e]) := by
  intro before e' after heq
  rcases eq_nil_or_concat after with rfl | ⟨after, last, rfl⟩
  · obtain ⟨rfl, hlast⟩ := List.append_inj' heq rfl
    rw [singleton_inj.mp hlast] at he
    exact he
  · rw [concat_eq_append, ← cons_append, ← append_assoc] at heq
    exact h before e' after (List.append_inj' heq rfl).1

theorem Disciplined.of_append {tr : List Event}
    (h : Disciplined payload (tr ++ [e])) : Disciplined payload tr ∧ Next payload tr e := by
  refine ⟨fun before e' after heq => ?_, h tr e [] rfl⟩
  refine h before e' (after ++ [e]) ?_
  rw [heq, append_assoc, cons_append]

/-- An accepted record is one of the present epoch, or it left. -/
theorem Disciplined.mem_accepted {tr : List Event} (h : Disciplined payload tr)
    {r : Record} (hr : r ∈ accepted tr) : r ∈ accepted (epoch tr) ∨ r ∈ left tr := by
  induction tr using List.reverseRecOn with
  | nil => cases hr
  | append_singleton tr e ih =>
    obtain ⟨htr, hnext⟩ := h.of_append
    rw [accepted_append, mem_append] at hr
    rw [left_append, mem_append]
    by_cases hd : ∃ report, e = .dropped report
    · obtain ⟨report, rfl⟩ := hd
      have hr' : r ∈ accepted tr := hr.resolve_right not_mem_nil
      rcases ih htr hr' with hin | hin
      · have heq : accepted (epoch tr) = left (epoch tr) := hnext
        rw [heq] at hin
        exact .inr (.inl (((epoch_suffix tr).sublist.filterMap _).mem hin))
      · exact .inr (.inl hin)
    · have hne : ∀ report, e ≠ .dropped report := fun report heq => hd ⟨report, heq⟩
      rw [epoch_append_of_ne tr hne, accepted_append, mem_append]
      rcases hr with hr | hr
      · rcases ih htr hr with hin | hin
        · exact .inl (.inl hin)
        · exact .inr (.inl hin)
      · exact .inl (.inr hr)

end Trace
end PortableFS.Writeback
