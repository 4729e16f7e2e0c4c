import IqdbPersist.ByteReader

/-!
# Operations that can panic

Indexing, slicing and arithmetic on machine sizes panic when a bound is violated, and a loop may not
end. A program over these operations is harmless when it is a plain program with the errors
reported: `reported` and `tame` embed the plain programs, as pure computations and as programs with
a state, and commute with the ways to build a program.
-/

namespace CheckedOps

open CrashLogic ByteReader

/-- An error of the program's own, a violated bound, or rounds that did not suffice. -/
inductive Fault (ε : Type) where
  | error (e : ε)
  | panicked
  | unfinished
  deriving DecidableEq, Repr

variable {ε σ α β : Type}

/-- A computation that does not panic. -/
def reported : Except ε α → Except (Fault ε) α
  | .ok a => .ok a
  | .error e => .error (.error e)

/-- A program that does not panic. -/
def tame (p : EStateM ε σ α) : EStateM (Fault ε) σ α := fun s =>
  match p s with
  | .ok a s' => .ok a s'
  | .error e s' => .error (.error e) s'

section Operations

variable (limit : ℕ)

/-- `bytes[i]` -/
def index (bytes : Bytes) (i : ℕ) : Except (Fault ε) UInt8 :=
  match bytes[i]? with
  | some byte => .ok byte
  | none => .error .panicked

/-- `&bytes[i..j]` -/
def slice (bytes : Bytes) (i j : ℕ) : Except (Fault ε) Bytes :=
  if i ≤ j ∧ j ≤ bytes.length then .ok ((bytes.drop i).take (j - i)) else .error .panicked

/-- `&bytes[i..]` -/
def sliceFrom (bytes : Bytes) (i : ℕ) : Except (Fault ε) Bytes :=
  if i ≤ bytes.length then .ok (bytes.drop i) else .error .panicked

/-- `out[..n].copy_from_slice(src)` -/
def copyFromSlice (out : Bytes) (n : ℕ) (src : Bytes) : Except (Fault ε) Bytes :=
  if n ≤ out.length ∧ src.length = n then .ok (src ++ out.drop n) else .error .panicked

def add (m n : ℕ) : Except (Fault ε) ℕ :=
  if m + n ≤ limit then .ok (m + n) else .error .panicked

def sub (m n : ℕ) : Except (Fault ε) ℕ := if n ≤ m then .ok (m - n) else .error .panicked

def checkedAdd (m n : ℕ) : Option ℕ := if m + n ≤ limit then some (m + n) else none

/-- The bytes at the given offsets from `pos`. -/
def gather (bytes : Bytes) (pos : ℕ) : List ℕ → Except (Fault ε) Bytes
  | [] => .ok []
  | k :: offsets => do
    let byte ← index bytes (← add limit pos k)
    let rest ← gather bytes pos offsets
    .ok (byte :: rest)

/-- Rounds of a loop, at most `fuel` of them. -/
def loop (round : σ → Except (Fault ε) (ForInStep σ)) (fuel : ℕ) (s : σ) : Except (Fault ε) σ :=
  match fuel with
  | 0 => .error .unfinished
  | fuel + 1 =>
    match round s with
    | .ok (.yield s') => loop round fuel s'
    | .ok (.done s') => .ok s'
    | .error e => .error e

end Operations

section Embedding

theorem ok_bind (a : α) (f : α → Except ε β) : (Except.ok a >>= f) = f a := rfl

@[simp] theorem reported_ok (a : α) : reported (.ok a : Except ε α) = .ok a := rfl

@[simp] theorem reported_error (e : ε) :
    reported (.error e : Except ε α) = .error (.error e) := rfl

@[simp] theorem reported_pure (a : α) : reported (pure a : Except ε α) = pure a := rfl

@[simp] theorem reported_bind (x : Except ε α) (f : α → Except ε β) :
    reported (x >>= f) = reported x >>= fun a => reported (f a) := by
  cases x <;> rfl

@[simp] theorem reported_ite (c : Prop) [Decidable c] (x y : Except ε α) :
    reported (if c then x else y) = if c then reported x else reported y := apply_ite reported c x y

@[simp] theorem tame_pure (a : α) : tame (pure a : EStateM ε σ α) = pure a := rfl

@[simp] theorem tame_throw (e : ε) :
    tame (throw e : EStateM ε σ α) = throw (Fault.error e) := rfl

@[simp] theorem tame_bind (p : EStateM ε σ α) (f : α → EStateM ε σ β) :
    tame (p >>= f) = tame p >>= fun a => tame (f a) := by
  funext s
  change tame (EStateM.bind p f) s = EStateM.bind (tame p) (fun a => tame (f a)) s
  cases h : p s <;> simp only [tame, EStateM.bind, h]

@[simp] theorem tame_map (f : α → β) (p : EStateM ε σ α) : tame (f <$> p) = f <$> tame p := by
  funext s
  change tame (EStateM.map f p) s = EStateM.map f (tame p) s
  cases h : p s <;> simp only [tame, EStateM.map, h]

@[simp] theorem tame_settle (x : Except ε α) :
    tame (settle x : EStateM ε σ α) = settle (reported x) := by
  cases x <;> rfl

@[simp] theorem tame_ite (c : Prop) [Decidable c] (p q : EStateM ε σ α) :
    tame (if c then p else q) = if c then tame p else tame q := apply_ite tame c p q

@[simp] theorem tame_times (p : EStateM ε Cursor α) (n : ℕ) :
    tame (times p n) = times (tame p) n := by
  induction n with
  | zero => rfl
  | succ n ih => simp only [times, tame_bind, tame_pure, ih]

@[simp] theorem tame_ensure (c : Prop) [Decidable c] (e : ε) :
    tame (ensure c e : EStateM ε σ Unit) = ensure c (.error e) := by
  rw [ensure, tame_ite]
  rfl

theorem tame_bind_congr {p : EStateM ε σ α} {Q : α → Prop} {E : ε → σ → Prop}
    (hp : ∀ s, Ends p s (fun a _ => Q a) E) {f g : α → EStateM (Fault ε) σ β}
    (h : ∀ a, Q a → f a = g a) : (tame p >>= f) = tame p >>= g := by
  funext s
  have hends := hp s
  change EStateM.bind (tame p) f s = EStateM.bind (tame p) g s
  unfold Ends at hends
  cases hrun : p s with
  | ok a s' =>
    rw [hrun] at hends
    simp only [EStateM.bind, tame, hrun, h a hends]
  | error e s' => simp only [EStateM.bind, tame, hrun]

end Embedding

section Bounds

variable {limit : ℕ} {bytes : Bytes}

theorem index_eq {i : ℕ} (h : i < bytes.length) :
    (index bytes i : Except (Fault ε) UInt8) = .ok (bytes.get ⟨i, h⟩) := by
  simp [index, h]

theorem slice_eq {i j : ℕ} (hij : i ≤ j) (hj : j ≤ bytes.length) :
    (slice bytes i j : Except (Fault ε) Bytes) = .ok ((bytes.drop i).take (j - i)) :=
  if_pos ⟨hij, hj⟩

theorem sliceFrom_eq {i : ℕ} (h : i ≤ bytes.length) :
    (sliceFrom bytes i : Except (Fault ε) Bytes) = .ok (bytes.drop i) := if_pos h

theorem copyFromSlice_eq {out src : Bytes} {n : ℕ} (hn : n ≤ out.length) (hsrc : src.length = n) :
    (copyFromSlice out n src : Except (Fault ε) Bytes) = .ok (src ++ out.drop n) :=
  if_pos ⟨hn, hsrc⟩

theorem add_eq {m n : ℕ} (h : m + n ≤ limit) :
    (add limit m n : Except (Fault ε) ℕ) = .ok (m + n) := if_pos h

theorem sub_eq {m n : ℕ} (h : n ≤ m) : (sub m n : Except (Fault ε) ℕ) = .ok (m - n) := if_pos h

theorem gather_range' (hlimit : bytes.length ≤ limit) (pos : ℕ) {i n : ℕ}
    (h : pos + i + n ≤ bytes.length) :
    (gather limit bytes pos (List.range' i n) : Except (Fault ε) Bytes) =
      .ok ((bytes.drop (pos + i)).take n) := by
  induction n generalizing i with
  | zero => simp [gather]
  | succ n ih =>
    have hi : pos + i < bytes.length := by omega
    have hrest := ih (i := i + 1) (by omega)
    have hcons := List.drop_eq_getElem_cons hi
    rw [List.range'_succ, gather, add_eq (by omega), hcons, List.take_succ_cons, Nat.add_assoc]
    change (index bytes (pos + i)).bind _ = _
    rw [index_eq hi]
    change (gather limit bytes pos (List.range' (i + 1) n)).bind _ = _
    rw [hrest]
    rfl

end Bounds

end CheckedOps
