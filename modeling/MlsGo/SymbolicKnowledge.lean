import Mathlib.Data.Set.Basic
import Mathlib.Logic.Function.Iterate
import Mathlib.Tactic

/-!
# Knowledge of symbolic secrets

Secrets are terms: fresh values, and what is derived from a term under a label.
Somebody who draws some of the fresh values and reads all that is sent can compute
what is derived from its own values and from the contents of the ciphertexts whose
keys it can compute.  A derivation cannot be undone, so a term is computed from one
of the terms that it was derived from.
-/

namespace SymbolicKnowledge

variable {ℓ α : Type*}

/-- A fresh value, or what is derived from a term under a label. -/
inductive Term (ℓ α : Type*) where
  | fresh (a : α)
  | derive (label : ℓ) (t : Term ℓ α)
  deriving DecidableEq

namespace Term

def root : Term ℓ α → α
  | fresh a => a
  | derive _ t => t.root

def depth : Term ℓ α → ℕ
  | fresh _ => 0
  | derive _ t => t.depth + 1

def chain (label : ℓ) (n : ℕ) (t : Term ℓ α) : Term ℓ α := (derive label)^[n] t

@[simp] theorem root_fresh (a : α) : (fresh a : Term ℓ α).root = a := rfl

@[simp] theorem root_derive (label : ℓ) (t : Term ℓ α) : (derive label t).root = t.root := rfl

theorem chain_succ (label : ℓ) (n : ℕ) (t : Term ℓ α) :
    chain label (n + 1) t = derive label (chain label n t) := Function.iterate_succ_apply' ..

@[simp] theorem root_chain (label : ℓ) (n : ℕ) (t : Term ℓ α) :
    (chain label n t).root = t.root := by
  induction n with
  | zero => rfl
  | succ n ih => rw [chain_succ, root_derive, ih]

@[simp] theorem depth_chain (label : ℓ) (n : ℕ) (a : α) : (chain label n (fresh a)).depth = n := by
  induction n with
  | zero => rfl
  | succ n ih => rw [chain_succ, depth, ih]

/-- Derivations lead from one term to another. -/
inductive Yields (t : Term ℓ α) : Term ℓ α → Prop where
  | refl : Yields t t
  | step {u : Term ℓ α} (label : ℓ) (h : Yields t u) : Yields t (.derive label u)

theorem Yields.depth_le {t u : Term ℓ α} (h : Yields t u) : t.depth ≤ u.depth := by
  induction h with
  | refl => exact le_rfl
  | step label _ ih => exact Nat.le_succ_of_le ih

theorem Yields.chain_le {label last : ℓ} (hne : label ≠ last) {m n : ℕ} {a b : α}
    (h : Yields (chain label m (fresh a)) (derive last (chain label n (fresh b)))) :
    m ≤ n := by
  have hinner : Yields (chain label m (fresh a)) (chain label n (fresh b)) := by
    generalize hend : derive last (chain label n (fresh b)) = u at h
    cases h with
    | refl =>
        cases m with
        | zero => cases hend
        | succ m =>
            rw [chain_succ, derive.injEq] at hend
            exact absurd hend.1.symm hne
    | step label' h =>
        cases hend
        exact h
  simpa using hinner.depth_le

end Term

/-- What can be computed from one's own fresh values and from what is sent; `sent k m`
says that the content `m` was encrypted so that the key `k` opens it. -/
inductive Knows (own : Set α) (sent : Term ℓ α → Term ℓ α → Prop) :
    Term ℓ α → Prop where
  | own {a : α} (ha : a ∈ own) : Knows own sent (.fresh a)
  | derive {t : Term ℓ α} (label : ℓ) (h : Knows own sent t) : Knows own sent (.derive label t)
  | opens {key content : Term ℓ α} (hsent : sent key content)
      (hkey : Knows own sent key) : Knows own sent content

end SymbolicKnowledge
