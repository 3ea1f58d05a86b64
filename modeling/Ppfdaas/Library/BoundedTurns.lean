import Ppfdaas.Library.Interleaving

/-!
# Programs that never wait

`Within n p` says that every action of `p` is enabled and that `p` is done after
at most `n` of them, whatever it reads.  A thread with such a program is
answered after one turn more, whatever the other threads do.
-/

namespace Interleaving

variable {σ τ κ α β ρ : Type}

inductive Within : ℕ → Prog σ ρ → Prop
  | done (n : ℕ) (r : ρ) : Within n (.done r)
  | act {n : ℕ} {e : σ → Bool} {u : σ → σ} {f : σ → Prog σ ρ} (he : ∀ s, e s = true)
      (hf : ∀ s, Within n (f s)) : Within (n + 1) (.act e u f)

namespace Within

variable {n k : ℕ}

theorem mono {p : Prog σ ρ} (hp : Within n p) (hn : n ≤ k) : Within k p := by
  induction hp generalizing k with
  | done n r => exact .done k r
  | act he _ ih =>
      obtain ⟨k, rfl⟩ := Nat.exists_eq_add_of_le' (Nat.le_of_add_left_le hn)
      exact .act he fun s ↦ ih s (Nat.le_of_add_le_add_right hn)

theorem bind {p : Prog σ α} {f : α → Prog σ β} (hp : Within n p) (hf : ∀ a, Within k (f a)) :
    Within (n + k) (p >>= f) := by
  induction hp with
  | done n a => exact (hf a).mono (Nat.le_add_left k n)
  | @act n _ _ _ he _ ih =>
      rw [Nat.add_right_comm]
      exact .act he ih

theorem atomically (f : σ → α × σ) : Within 1 (Prog.atomically f) :=
  .act (fun _ ↦ rfl) fun _ ↦ .done 0 _

theorem read (f : σ → α) : Within 1 (Prog.read f) := atomically _

theorem modify (f : σ → σ) : Within 1 (Prog.modify f) := atomically _

variable {ε : Type}

theorem except_bind {x : ExceptT ε (Prog σ) α} {f : α → ExceptT ε (Prog σ) β}
    (hx : Within n x.run) (hf : ∀ a, Within k (f a).run) : Within (n + k) (x >>= f).run := by
  rw [ExceptT.run_bind]
  refine bind hx fun r ↦ ?_
  cases r with
  | ok a => exact hf a
  | error e => exact .done k _

theorem foldlM {ι : Type} {step : α → ι → ExceptT ε (Prog σ) α}
    (hstep : ∀ a i, Within n (step a i).run) (is : List ι) (a : α) :
    Within (is.length * n) (is.foldlM step a).run := by
  induction is generalizing a with
  | nil => exact .done _ _
  | cons i is ih =>
      rw [List.length_cons, Nat.succ_mul, Nat.add_comm]
      exact except_bind (hstep a i) ih

end Within

namespace Config

variable [DecidableEq τ] {handler : τ → κ → Prog σ ρ}

/-- How many turns a schedule gives to `t`. -/
def turns (t : τ) : List (Choice τ κ) → ℕ
  | [] => 0
  | .call _ _ :: xs => turns t xs
  | .go u :: xs => if u = t then turns t xs + 1 else turns t xs

theorem shared_of_idle {c : Config σ τ κ ρ} {t : τ} (hidle : c.running t = none) (n : ℕ) :
    (c.run handler (List.replicate n (.go t))).shared = c.shared := by
  have hstep : c.step handler (.go t) = c := by simp only [Config.step, hidle]
  induction n with
  | zero => rfl
  | succ n ih => rw [List.replicate_succ, run_cons, hstep, ih]

theorem shared_of_running {c : Config σ τ κ ρ} {t : τ} {k : κ} {p : Prog σ ρ} {n : ℕ}
    (hrun : c.running t = some (k, p)) (hp : Within n p) :
    (c.run handler (List.replicate n (.go t))).shared = (p.run c.shared).2 := by
  induction n generalizing c p with
  | zero =>
      cases hp
      rfl
  | succ n ih =>
      rw [List.replicate_succ, run_cons]
      cases hp with
      | done n r =>
          have hstep : c.step handler (.go t) =
              { c with
                running := Function.update c.running t none
                served := (t, k, r) :: c.served } := by
            simp only [Config.step, hrun]
          rw [hstep, shared_of_idle (Function.update_self ..)]
          rfl
      | @act n e u f he hf =>
          have hstep : c.step handler (.go t) =
              { c with
                shared := u c.shared
                running := Function.update c.running t (some (k, f c.shared)) } := by
            simp only [Config.step, hrun, he, if_true]
          rw [hstep, ih (Function.update_self ..) (hf c.shared)]
          rfl

/-- A call that is given all the turns it needs leaves what it leaves alone. -/
theorem shared_of_call {s : σ} {t : τ} {k : κ} {n : ℕ} (hp : Within n (handler t k)) :
    ((idle s).run handler (.call t k :: List.replicate n (.go t))).shared =
      ((handler t k).run s).2 := by
  rw [run_cons]
  exact shared_of_running (c := (idle s).step handler (.call t k)) (Function.update_self ..) hp

end Config

end Interleaving
