import Mathlib

/-!
# Readers of bytes

Library `Base`. A reader consumes a prefix of its bytes or fails. A reader reads a format when it
accepts exactly the bytes that a writer produces, with the value they were written from, whatever
follows: `Reads`. Such readers compose, so that one equivalence says both that a decoder inverts an
encoder and that it accepts nothing else.
-/

namespace PortableFS.Base

open List

theorem bind_eq_ok {ε α β : Type} {a : Except ε α} {f : α → Except ε β} {b : β} :
    a >>= f = .ok b ↔ ∃ v, a = .ok v ∧ f v = .ok b := by
  cases a with
  | error | ok => simp [bind, Except.bind]

/-- A reader of bytes that may fail. -/
abbrev Reader (ε : Type) := StateT (List UInt8) (Except ε)

namespace Reader

variable {ε α β : Type} {p : Reader ε α} {bytes rest : List UInt8}

theorem run_bind_ok {f : α → Reader ε β} {b : β} : (p >>= f).run bytes = .ok (b, rest) ↔
      ∃ a left, p.run bytes = .ok (a, left) ∧ (f a).run left = .ok (b, rest) := by
  rw [StateT.run_bind, bind_eq_ok, Prod.exists]

variable {a : α}

theorem run_pure_ok {a' : α} :
    (pure a : Reader ε α).run bytes = .ok (a', rest) ↔ a = a' ∧ bytes = rest := by
  change Except.ok (a, bytes) = Except.ok (a', rest) ↔ _
  simp

/-- The next `n` bytes; `short` is the error when there are fewer. -/
def take (short : ℕ → ℕ → ε) (n : ℕ) : Reader ε (List UInt8) := fun bytes =>
  if n ≤ bytes.length then .ok (bytes.take n, bytes.drop n) else .error (short n bytes.length)

theorem run_take_ok {short : ℕ → ℕ → ε} {n : ℕ} {taken : List UInt8} :
    (take short n).run bytes = .ok (taken, rest) ↔ bytes = taken ++ rest ∧ taken.length = n := by
  change (if n ≤ bytes.length then Except.ok (bytes.take n, bytes.drop n)
    else Except.error (short n bytes.length)) = _ ↔ _
  split
  · next hle =>
    simp only [Except.ok.injEq, Prod.mk.injEq]
    constructor
    · rintro ⟨rfl, rfl⟩
      exact ⟨(take_append_drop n bytes).symm, length_take_of_le hle⟩
    · rintro ⟨rfl, rfl⟩
      exact ⟨take_left, drop_left⟩
  · next hlt =>
    simp only [reduceCtorEq, false_iff, not_and]
    rintro rfl hlen
    rw [length_append] at hlt
    omega

/-- Fail unless a condition holds. -/
def require (ok : Bool) (e : ε) : Reader ε Unit := fun bytes =>
  if ok then .ok ((), bytes) else .error e

variable {e : ε} {u : Unit}

theorem run_require_ok {ok : Bool} :
    (require ok e).run bytes = .ok (u, rest) ↔ ok = true ∧ bytes = rest := by
  change (if ok then Except.ok ((), bytes) else Except.error e) = _ ↔ _
  split
  · next h => simp [h]
  · next h => simp [h]

/-- Values at consecutive positions, each read by the reader for its position. -/
def indexed (p : ℕ → Reader ε α) : ℕ → ℕ → Reader ε (List α)
  | _, 0 => pure []
  | index, n + 1 => do
    let a ← p index
    let l ← indexed p (index + 1) n
    return a :: l

/-- As many values as asked for. -/
def replicate (p : Reader ε α) (n : ℕ) : Reader ε (List α) := indexed (fun _ => p) 0 n

/-- The reader accepts exactly what the writer writes of values with a property. -/
def Reads (p : Reader ε α) (write : α → List UInt8) (ok : α → Prop) : Prop :=
  ∀ bytes a rest, p.run bytes = .ok (a, rest) ↔ bytes = write a ++ rest ∧ ok a

variable {write : α → List UInt8} {ok : α → Prop}

theorem Reads.indexed {p : ℕ → Reader ε α} (h : ∀ index, (p index).Reads write ok) (index n : ℕ) :
    (Reader.indexed p index n).Reads (fun l => l.flatMap write)
      fun l => l.length = n ∧ ∀ a ∈ l, ok a := by
  induction n generalizing index with
  | zero =>
    intro bytes l rest
    rw [Reader.indexed, run_pure_ok]
    constructor
    · rintro ⟨rfl, rfl⟩
      exact ⟨rfl, rfl, by simp⟩
    · rintro ⟨rfl, hlen, -⟩
      obtain rfl := length_eq_zero_iff.mp hlen
      exact ⟨rfl, rfl⟩
  | succ n ih =>
    intro bytes l rest
    rw [Reader.indexed, run_bind_ok]
    constructor
    · rintro ⟨a, left, ha, hl⟩
      obtain ⟨l', left', hl', hpure⟩ := run_bind_ok.mp hl
      obtain ⟨rfl, rfl⟩ := run_pure_ok.mp hpure
      obtain ⟨rfl, hok⟩ := (h _ _ _ _).mp ha
      obtain ⟨rfl, hlen, hall⟩ := (ih _ _ _ _).mp hl'
      refine ⟨by simp, by rw [length_cons, hlen], ?_⟩
      exact forall_mem_cons.mpr ⟨hok, hall⟩
    · rintro ⟨rfl, hlen, hall⟩
      obtain ⟨a, l', rfl⟩ := exists_cons_of_length_eq_add_one hlen
      rw [length_cons, Nat.add_right_cancel_iff] at hlen
      refine ⟨a, l'.flatMap write ++ rest, ?_, ?_⟩
      · rw [h]
        exact ⟨by simp, hall a mem_cons_self⟩
      · apply run_bind_ok.mpr
        refine ⟨l', rest, ?_, run_pure_ok.mpr ⟨rfl, rfl⟩⟩
        exact (ih _ _ _ _).mpr ⟨rfl, hlen, fun b hb => hall b (mem_cons_of_mem a hb)⟩

theorem Reads.replicate (h : p.Reads write ok) (n : ℕ) :
    (p.replicate n).Reads (fun l => l.flatMap write) fun l => l.length = n ∧ ∀ a ∈ l, ok a :=
  Reads.indexed (fun _ => h) 0 n

theorem Reads.congr {write' : α → List UInt8} {ok' : α → Prop} (h : p.Reads write ok)
    (hok : ∀ a, ok a ↔ ok' a) (hwrite : ∀ a, ok a → write a = write' a) : p.Reads write' ok' := by
  intro bytes a rest
  rw [h]
  constructor
  · rintro ⟨rfl, ha⟩
    exact ⟨by rw [hwrite a ha], (hok a).mp ha⟩
  · rintro ⟨rfl, ha⟩
    have ha := (hok a).mpr ha
    exact ⟨by rw [hwrite a ha], ha⟩

/-- The value read is converted, without loss on the values that are read. -/
theorem Reads.map {p : Reader ε β} {write : β → List UInt8} {ok : β → Prop} (f : β → α)
    (back : α → β) (hp : p.Reads write ok) (hback : ∀ a b, ok b → (f b = a ↔ back a = b)) :
    (p >>= fun b => pure (f b)).Reads (fun a => write (back a))
      fun a => ok (back a) ∧ f (back a) = a := by
  intro bytes a rest
  rw [run_bind_ok]
  constructor
  · rintro ⟨b, left, hb, ha⟩
    obtain ⟨rfl, hok⟩ := (hp _ _ _).mp hb
    obtain ⟨rfl, rfl⟩ := run_pure_ok.mp ha
    have heq : back (f b) = b := (hback _ b hok).mp rfl
    dsimp only
    rw [heq]
    exact ⟨rfl, hok, rfl⟩
  · rintro ⟨rfl, hok, heq⟩
    exact ⟨back a, rest, (hp _ _ _).mpr ⟨rfl, hok⟩, run_pure_ok.mpr ⟨heq, rfl⟩⟩

variable {known : α → Prop}

/-- The end of a record: what is known determines it. -/
theorem Reads.done (h : ∀ a', a = a' ↔ known a') :
    (pure a : Reader ε α).Reads (fun _ => []) fun a' => known a' ∧ True := by
  intro bytes a' rest
  rw [run_pure_ok, nil_append, h]
  constructor
  · rintro ⟨hknown, rfl⟩
    exact ⟨rfl, hknown, trivial⟩
  · rintro ⟨rfl, hknown, -⟩
    exact ⟨hknown, rfl⟩

variable {okRest : α → Prop}

/-- A field of a record is read, after which it is known in the rest of the record. -/
theorem Reads.field {p : Reader ε β} {f : β → Reader ε α} {write : β → List UInt8} {ok : β → Prop}
    {writeRest : α → List UInt8} (field : α → β) (hp : p.Reads write ok)
    (hf : ∀ b, ok b → (f b).Reads writeRest fun a => (known a ∧ field a = b) ∧ okRest a) :
    (p >>= f).Reads (fun a => write (field a) ++ writeRest a)
      fun a => known a ∧ (ok (field a) ∧ okRest a) := by
  intro bytes a rest
  rw [run_bind_ok]
  constructor
  · rintro ⟨b, left, hb, ha⟩
    obtain ⟨rfl, hok⟩ := (hp _ _ _).mp hb
    obtain ⟨rfl, ⟨hknown, rfl⟩, hrest⟩ := (hf _ hok _ _ _).mp ha
    exact ⟨by rw [append_assoc], hknown, hok, hrest⟩
  · rintro ⟨rfl, hknown, hok, hrest⟩
    refine ⟨field a, writeRest a ++ rest, ?_, ?_⟩
    · exact (hp _ _ _).mpr ⟨by rw [append_assoc], hok⟩
    · exact (hf _ hok _ _ _).mpr ⟨rfl, ⟨hknown, rfl⟩, hrest⟩

/-- A check in the middle of a record, as a condition on the record. -/
theorem Reads.require {ok : Bool} (cond : α → Prop) (hcond : ∀ a, known a → (ok = true ↔ cond a))
    (hp : ok = true → p.Reads write fun a => known a ∧ okRest a) :
    (Reader.require ok e >>= fun _ => p).Reads write fun a => known a ∧ (cond a ∧ okRest a) := by
  intro bytes a rest
  rw [run_bind_ok]
  constructor
  · rintro ⟨u, left, hu, ha⟩
    obtain ⟨hok, rfl⟩ := run_require_ok.mp hu
    obtain ⟨rfl, hknown, hrest⟩ := (hp hok _ _ _).mp ha
    exact ⟨rfl, hknown, (hcond a hknown).mp hok, hrest⟩
  · rintro ⟨rfl, hknown, hc, hrest⟩
    have hok := (hcond a hknown).mpr hc
    exact ⟨(), write a ++ rest, run_require_ok.mpr ⟨hok, rfl⟩,
      (hp hok _ _ _).mpr ⟨rfl, hknown, hrest⟩⟩

/-- The same reader with its errors rewritten. -/
def mapError (f : ε → ε) (p : Reader ε α) : Reader ε α := fun bytes =>
  match p.run bytes with
  | .ok r => .ok r
  | .error e => .error (f e)

theorem Reads.mapError (h : p.Reads write ok) (f : ε → ε) : (p.mapError f).Reads write ok := by
  intro bytes a rest
  rw [← h]
  change (match p.run bytes with
    | .ok r => Except.ok r
    | .error e => .error (f e)) = _ ↔ _
  cases p.run bytes with
  | ok r => exact Iff.rfl
  | error e => simp

/-- Fail unless `count` records of at least `size` bytes fit in what is left. -/
def budget (count size : ℕ) (short : ℕ → ε) : Reader ε Unit := fun bytes =>
  if count ≤ bytes.length / size then .ok ((), bytes) else .error (short bytes.length)

variable {count size : ℕ} {short : ℕ → ε}

theorem run_budget_ok : (budget count size short).run bytes = .ok (u, rest) ↔
      count ≤ bytes.length / size ∧ bytes = rest := by
  change (if count ≤ bytes.length / size then Except.ok ((), bytes)
    else Except.error (short bytes.length)) = _ ↔ _
  split
  · next h => simp [h]
  · next h => simp [h]

/-- A budget that the records written always meet changes nothing. -/
theorem Reads.budget (hp : p.Reads write ok) (hsize : 0 < size)
    (hfit : ∀ a, ok a → count * size ≤ (write a).length) :
    (Reader.budget count size short >>= fun _ => p).Reads write ok := by
  intro bytes a rest
  rw [run_bind_ok]
  constructor
  · rintro ⟨u, left, hu, ha⟩
    obtain ⟨-, rfl⟩ := run_budget_ok.mp hu
    exact (hp _ _ _).mp ha
  · rintro ⟨rfl, hok⟩
    refine ⟨(), write a ++ rest, run_budget_ok.mpr ⟨?_, rfl⟩, (hp _ _ _).mpr ⟨rfl, hok⟩⟩
    rw [Nat.le_div_iff_mul_le hsize, length_append]
    exact (hfit a hok).trans (Nat.le_add_right _ _)

end Reader

end PortableFS.Base
