namespace ShiftReduce

inductive Round (σ ρ : Type)
  | next (s : σ)
  | ended (r : ρ)

namespace Round

-- Powers are those of the core library, whatever else is imported.
attribute [local instance (high)] instPowNat

variable {σ ρ : Type} {f : σ → Round σ ρ}

def times (f : σ → Round σ ρ) (n : Nat) (s : σ) : Round σ ρ :=
  match n with
  | 0 => next s
  | n + 1 =>
    match f s with
    | next s => times f n s
    | ended r => ended r

-- At most `fuel` rounds, then twice as many, and so on `n` times in all. A fuel of `2 ^ n` is a
-- number of `n` bits, which every round would have to write anew; here only small numbers are
-- counted down.
def doublingFrom (f : σ → Round σ ρ) (n fuel : Nat) (s : σ) : Round σ ρ :=
  match n with
  | 0 => next s
  | n + 1 =>
    match times f fuel s with
    | next s => doublingFrom f n (2 * fuel) s
    | ended r => ended r

-- At most `2 ^ n - 1` rounds.
def doubling (f : σ → Round σ ρ) (n : Nat) (s : σ) : Round σ ρ :=
  doublingFrom f n 1 s

theorem times_add {m n : Nat} {s : σ} :
    times f (m + n) s =
      match times f m s with
      | next s => times f n s
      | ended r => ended r := by
  induction m generalizing s
  case zero => simp [times]
  case succ m hi =>
    rw [Nat.succ_add]
    simp only [times]
    split
    case h_1 => exact hi
    case h_2 => rfl

theorem doublingFrom_eq_times {n fuel : Nat} {s : σ} :
    doublingFrom f n fuel s = times f (fuel * (2 ^ n - 1)) s := by
  induction n generalizing fuel s
  case zero => rfl
  case succ n hi =>
    have hsum : fuel * (2 ^ (n + 1) - 1) = fuel + 2 * fuel * (2 ^ n - 1) := by
      obtain ⟨p, hp⟩ : ∃ p, 2 ^ n = p + 1 :=
        Nat.exists_eq_add_one.2 (Nat.two_pow_pos n)
      rw [Nat.pow_succ, hp, Nat.add_sub_cancel, show (p + 1) * 2 - 1 = 1 + 2 * p by omega,
        Nat.mul_add, Nat.mul_one, Nat.mul_comm 2 fuel, Nat.mul_assoc]
    simp only [doublingFrom, hsum, times_add, hi]

theorem doubling_eq_times {n : Nat} {s : σ} : doubling f n s = times f (2 ^ n - 1) s := by
  rw [doubling, doublingFrom_eq_times, Nat.one_mul]

end Round
end ShiftReduce
