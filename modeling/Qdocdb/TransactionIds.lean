import Mathlib.Data.Int.Interval
import Qdocdb.Lib.While
import Qdocdb.ServerSteps

/-!
# Numbers of transactions

`getNextTransactionId` takes the counter as the number of a new transaction and counts on, until
the number is not negative and not live. A counter that is negative, or wraps to be, is set to 0
in the middle of the round that reads it. The loop ends from every counter, with a number that
is not live, when not all numbers are (`givesFreshId_of_countedFrom`).
-/

namespace Qdocdb
namespace QDocdbServer

/-! ## The loop -/

section Loop

variable {transactions : AList fun _ : ℤ => OpenTransaction} {id c f : ℤ}

/-- The loop goes on: the number is negative or live. -/
def isTaken (transactions : AList fun _ : ℤ => OpenTransaction) (p : ℤ × ℤ) : Bool :=
  decide (p.1 < 0 ∨ p.1 ∈ transactions)

/-- `id = this->transactionId++`; behind a negative number the counter goes on from 0. -/
def countOn (p : ℤ × ℤ) : Option (ℤ × ℤ) :=
  some (p.2, if p.2 < 0 then 0 else int32 (p.2 + 1))

/-- The loop of `getNextTransactionId`, which may not end: the number, and the counter. -/
def nextTransactionIdWhile (transactions : AList fun _ : ℤ => OpenTransaction) :
    ℕ → ℤ × ℤ → Option (ℤ × ℤ) :=
  whileLoop (isTaken transactions) countOn

theorem isTaken_of_mem (h : id ∈ transactions) : isTaken transactions (id, c) = true :=
  decide_eq_true (.inr h)

theorem isTaken_of_neg (h : id < 0) : isTaken transactions (id, c) = true :=
  decide_eq_true (.inl h)

/-- A round from a negative counter. -/
theorem while_of_neg (htaken : isTaken transactions (id, c) = true) (hc : c < 0) (fuel : ℕ) :
    nextTransactionIdWhile transactions (fuel + 1) (id, c) =
      nextTransactionIdWhile transactions fuel (c, 0) := by
  have hround : countOn (id, c) = some (c, 0) := by rw [countOn, if_pos hc]
  exact whileLoop_of_true htaken hround fuel

/-- A round from a counter that is not negative. -/
theorem while_of_nonneg (htaken : isTaken transactions (id, c) = true) (hc : 0 ≤ c) (fuel : ℕ) :
    nextTransactionIdWhile transactions (fuel + 1) (id, c) =
      nextTransactionIdWhile transactions fuel (c, int32 (c + 1)) := by
  have hround : countOn (id, c) = some (c, int32 (c + 1)) := by rw [countOn, if_neg hc.not_gt]
  exact whileLoop_of_true htaken hround fuel

/-- **Live numbers** are skipped, one in each round. By induction on how many there are. -/
theorem while_live (htaken : isTaken transactions (id, c) = true) (hc : 0 ≤ c) (hint : IsInt c)
    {n : ℕ} (hn : c + n ≤ 2 ^ 31) (hlive : ∀ k, c ≤ k → k < c + n → k ∈ transactions) (fuel : ℕ) :
    ∃ id', isTaken transactions (id', int32 (c + n)) = true ∧
      nextTransactionIdWhile transactions (fuel + n) (id, c) =
        nextTransactionIdWhile transactions fuel
          (id', int32 (c + n)) := by
  induction n generalizing fuel with
  | zero =>
    rw [Nat.cast_zero, add_zero, int32_of_lt hint.1 hint.2]
    exact ⟨id, htaken, rfl⟩
  | succ n ih =>
    rw [Nat.cast_succ] at hn hlive
    obtain ⟨id', htaken', hloop⟩ :=
      ih (by omega) (fun k hk hlt => hlive k hk (by omega)) (fuel + 1)
    rw [int32_of_lt (by omega) (by omega)] at htaken' hloop
    rw [← Nat.add_assoc, Nat.add_right_comm, hloop, while_of_nonneg htaken' (by omega),
      Nat.cast_succ, add_assoc]
    exact ⟨c + n, isTaken_of_mem (hlive _ (by omega) (by omega)), rfl⟩

/-- **A free number** ends the loop that comes to it. -/
theorem while_free (htaken : isTaken transactions (id, c) = true) (hc : 0 ≤ c) (hle : c ≤ f)
    (hf : f < 2 ^ 31) (hlive : ∀ k, c ≤ k → k < f → k ∈ transactions) (hfree : f ∉ transactions) :
    nextTransactionIdWhile transactions ((f - c).toNat + 2) (id, c) =
      some (f, int32 (f + 1)) := by
  have hcf : c + (f - c).toNat = f := by omega
  obtain ⟨id', htaken', hloop⟩ := while_live htaken hc ⟨by omega, by omega⟩
    (n := (f - c).toNat) (by omega) (by rwa [hcf]) 2
  rw [hcf, int32_of_lt (by omega) hf] at htaken' hloop
  have hend : isTaken transactions (f, int32 (f + 1)) = false :=
    decide_eq_false fun h => h.elim (fun hneg => by omega) hfree
  rw [Nat.add_comm, hloop, while_of_nonneg htaken' (by omega), nextTransactionIdWhile,
    whileLoop_of_false hend]

/-- Of the live numbers there are not fewer than of some of them. -/
theorem card_le_of_live {s : Finset ℤ} (h : ∀ k ∈ s, k ∈ transactions) :
    s.card ≤ transactions.keys.length := by
  have hsub : s ⊆ transactions.keys.toFinset := fun k hk =>
    List.mem_toFinset.mpr (AList.mem_keys.mp (h k hk))
  exact (Finset.card_le_card hsub).trans (List.toFinset_card_le _)

/-- The first free number from `c` on. -/
theorem exists_first_free (h : ∃ k, c ≤ k ∧ k < 2 ^ 31 ∧ k ∉ transactions) :
    ∃ f, c ≤ f ∧ f < 2 ^ 31 ∧ f ∉ transactions ∧ ∀ k, c ≤ k → k < f → k ∈ transactions := by
  obtain ⟨k, hk, hlt, hfree⟩ := h
  induction hn : (k - c).toNat using Nat.strong_induction_on generalizing k with
  | _ n ih =>
    by_cases hall : ∀ k', c ≤ k' → k' < k → k' ∈ transactions
    · exact ⟨k, hk, hlt, hfree, hall⟩
    · push Not at hall
      obtain ⟨k', hk', hlt', hfree'⟩ := hall
      exact ih _ (by omega) k' hk' (by omega) hfree' rfl

/-- **From 0** the loop ends, as not all numbers are live. -/
theorem exists_while_zero (hlive : transactions.keys.length < 2 ^ 31) :
    ∃ f, 0 ≤ f ∧ f < 2 ^ 31 ∧ f ∉ transactions ∧ (∀ k, 0 ≤ k → k < f → k ∈ transactions) ∧
      ∀ id, isTaken transactions (id, 0) = true →
        nextTransactionIdWhile transactions (f.toNat + 2) (id, 0) =
          some (f, int32 (f + 1)) := by
  have hsome : ∃ k : ℤ, 0 ≤ k ∧ k < 2 ^ 31 ∧ k ∉ transactions := by
    by_contra hnone
    push Not at hnone
    have hcard := card_le_of_live (s := Finset.Ico 0 (2 ^ 31)) fun k hk =>
      hnone k (Finset.mem_Ico.mp hk).1 (Finset.mem_Ico.mp hk).2
    rw [Int.card_Ico] at hcard
    omega
  obtain ⟨f, hf, hlt, hfree, hbelow⟩ := exists_first_free hsome
  refine ⟨f, hf, hlt, hfree, hbelow, fun id htaken => ?_⟩
  have hloop := while_free htaken le_rfl hf hlt hbelow hfree
  rwa [sub_zero] at hloop

/-- **The loop ends**, with a number that is free, and makes at most three rounds more than
there are live numbers. -/
theorem exists_nextTransactionIdWhile (hc : IsInt c)
    (hlive : transactions.keys.length < 2 ^ 31) :
    ∃ fuel ≤ transactions.keys.length + 3, ∃ f, 0 ≤ f ∧ f ∉ transactions ∧
      nextTransactionIdWhile transactions fuel (-1, c) = some (f, int32 (f + 1)) := by
  have htaken : isTaken transactions (-1, c) = true := isTaken_of_neg (by decide)
  obtain ⟨f, hf, hlt, hfree, hbelow, hzero⟩ := exists_while_zero hlive
  by_cases hneg : c < 0
  · -- the counter is set to 0 in the first round
    have hcard := card_le_of_live (s := Finset.Ico 0 f) fun k hk =>
      hbelow k (Finset.mem_Ico.mp hk).1 (Finset.mem_Ico.mp hk).2
    rw [Int.card_Ico, sub_zero] at hcard
    refine ⟨f.toNat + 2 + 1, by omega, f, hf, hfree, ?_⟩
    rw [while_of_neg htaken hneg, hzero c (isTaken_of_neg hneg)]
  · have hc0 : 0 ≤ c := not_lt.mp hneg
    by_cases habove : ∃ k, c ≤ k ∧ k < 2 ^ 31 ∧ k ∉ transactions
    · obtain ⟨g, hg, hglt, hgfree, hgbelow⟩ := exists_first_free habove
      have hcard := card_le_of_live (s := Finset.Ico c g) fun k hk =>
        hgbelow k (Finset.mem_Ico.mp hk).1 (Finset.mem_Ico.mp hk).2
      rw [Int.card_Ico] at hcard
      exact ⟨_, by omega, g, hc0.trans hg, hgfree,
        while_free htaken hc0 hg hglt hgbelow hgfree⟩
    · -- the counter wraps, is set to 0, and ends below where it started
      push Not at habove
      have hfc : f < c := by
        by_contra hle
        exact hfree (habove f (not_lt.mp hle) hlt)
      have hdisjoint : Disjoint (Finset.Ico 0 f) (Finset.Ico c (2 ^ 31)) :=
        Finset.disjoint_left.mpr fun k hk hk' => by
          rw [Finset.mem_Ico] at hk hk'
          omega
      have hcard := card_le_of_live (s := Finset.Ico 0 f ∪ Finset.Ico c (2 ^ 31)) fun k hk => by
        rcases Finset.mem_union.mp hk with hk | hk <;> rw [Finset.mem_Ico] at hk
        · exact hbelow k hk.1 hk.2
        · exact habove k hk.1 hk.2
      rw [Finset.card_union_of_disjoint hdisjoint, Int.card_Ico, Int.card_Ico, sub_zero] at hcard
      have hend : c + (2 ^ 31 - c).toNat = 2 ^ 31 := by have := hc.2; omega
      obtain ⟨id', htaken', hloop⟩ := while_live htaken hc0 hc (n := (2 ^ 31 - c).toNat)
        hend.le (by rwa [hend]) (f.toNat + 2 + 1)
      rw [hend, show int32 (2 ^ 31) = -2 ^ 31 by decide] at htaken' hloop
      refine ⟨f.toNat + 2 + 1 + (2 ^ 31 - c).toNat, by omega, f, hf, hfree, ?_⟩
      rw [hloop, while_of_neg htaken' (by decide),
        hzero _ (isTaken_of_neg (by decide))]

/-- Fuel that suffices gives the result of the loop. -/
theorem nextTransactionIdLoop_eq {fuel : ℕ} {p q : ℤ × ℤ}
    (h : nextTransactionIdWhile transactions fuel p = some q) :
    nextTransactionIdLoop transactions fuel p.1 p.2 = q := by
  induction fuel generalizing p with
  | zero => cases h
  | succ fuel ih =>
    rw [nextTransactionIdLoop]
    rw [nextTransactionIdWhile, whileLoop] at h
    by_cases htaken : p.1 < 0 ∨ p.1 ∈ transactions
    · have hcond : isTaken transactions p = true := decide_eq_true htaken
      rw [if_pos hcond] at h
      rw [if_pos htaken]
      exact ih h
    · have hcond : isTaken transactions p = false := decide_eq_false htaken
      rw [if_neg (by simp [hcond])] at h
      rw [if_neg htaken]
      exact Option.some.inj h

end Loop

/-! ## Fresh numbers -/

/-- `getNextTransactionId` terminates, and its number is not negative and not live, and so not
the one that means auto-commit. -/
structure GivesFreshId (s : QDocdbServer) : Prop where
  terminates : ∃ fuel, nextTransactionIdWhile s.transactions fuel (-1, s.transactionId) =
    some s.getNextTransactionId
  nonneg : 0 ≤ s.getNextTransactionId.1
  notLive : s.getNextTransactionId.1 ∉ s.transactions
  notAutoCommit : s.getNextTransactionId.1 ≠ -1

/-- **Step**: a call gives a fresh number, and leaves an `int` in the counter. -/
theorem givesFreshId_of_isInt {s : QDocdbServer} (hc : IsInt s.transactionId)
    (hlive : s.transactions.keys.length < 2 ^ 31) :
    s.GivesFreshId ∧ IsInt s.getNextTransactionId.2 := by
  obtain ⟨fuel, hfuel, f, hf, hfree, hloop⟩ := exists_nextTransactionIdWhile hc hlive
  have henough : nextTransactionIdWhile s.transactions (s.transactions.keys.length + 3)
      (-1, s.transactionId) = some (f, int32 (f + 1)) := whileLoop_mono hfuel hloop
  have hnext : s.getNextTransactionId = (f, int32 (f + 1)) := nextTransactionIdLoop_eq henough
  refine ⟨⟨⟨fuel, by rw [hnext, hloop]⟩, ?_, ?_, ?_⟩, ?_⟩ <;> rw [hnext]
  · exact hf
  · exact hfree
  · exact fun h => absurd h (by omega)
  · exact isInt_int32 _

/-- The counter after calls of `getNextTransactionId`, between which any transactions are opened
and closed. -/
inductive CountedFrom (c₀ : ℤ) : ℤ → Prop
  | start : CountedFrom c₀ c₀
  | call {s : QDocdbServer} : CountedFrom c₀ s.transactionId →
    s.transactions.keys.length < 2 ^ 31 → CountedFrom c₀ s.getNextTransactionId.2

/-- **Transaction ids are fresh**, from every counter and after every number of calls. -/
theorem givesFreshId_of_countedFrom {c₀ : ℤ} (hc₀ : IsInt c₀) {s : QDocdbServer}
    (h : CountedFrom c₀ s.transactionId) (hlive : s.transactions.keys.length < 2 ^ 31) :
    s.GivesFreshId := by
  have hc : IsInt s.transactionId := by
    generalize s.transactionId = c at h
    induction h with
    | start => exact hc₀
    | call _ hlive ih => exact (givesFreshId_of_isInt ih hlive).2
  exact (givesFreshId_of_isInt hc hlive).1

/-- A server with an open transaction `0` whose counter is about to wrap. -/
def countedOut : QDocdbServer :=
  { QDocdbServer.init with
    transactionId := 2 ^ 31 - 1
    transactions := AList.insert 0 ⟨(qs "D", qs "c"), (Collection.open (Env.plain .levelDB)
      .empty).newTransaction⟩ ∅ }

/-- Behind the largest number the counter wraps, and the live number is skipped. -/
theorem givesFreshId_countedOut :
    GivesFreshId { countedOut with transactionId := countedOut.getNextTransactionId.2 } :=
  givesFreshId_of_countedFrom (show IsInt (2 ^ 31 - 1) by decide)
    (.call (s := countedOut) .start (by decide)) (by decide)

/-! ## Runs of the server -/

section Runs

variable {E : ServerEnv} {s : QDocdbServer} {client : ClientId} {o : QDocdbLinkObject}

theorem isInt_nextTransactionIdLoop {transactions : AList fun _ : ℤ => OpenTransaction} {id c : ℤ}
    (hc : IsInt c) (fuel : ℕ) : IsInt (nextTransactionIdLoop transactions fuel id c).2 := by
  induction fuel generalizing id c with
  | zero => exact hc
  | succ fuel ih =>
    rw [nextTransactionIdLoop]
    split
    · refine ih ?_
      split
      · decide
      · exact isInt_int32 _
    · exact hc

theorem transactionId_openCollectionOf :
    (s.openCollectionOf E o).transactionId = s.transactionId := by
  obtain ⟨d, m, q, h⟩ := openCollectionOf_eq E s o
  rw [h]

/-- Serving a request leaves an `int` in the counter. -/
theorem Served.isInt_transactionId {p : QDocdbServer × Reply} (h : Served E s client o p)
    (hc : IsInt s.transactionId) : IsInt p.1.transactionId := by
  have hopen : IsInt (s.openCollectionOf E o).transactionId := by
    rwa [transactionId_openCollectionOf]
  cases h with
  | writeTransaction ht =>
    rw [QDocdbServer.writeTransaction]
    split
    · exact hc
    · dsimp only
      split <;> exact hc
  | discardTransaction ht =>
    rw [QDocdbServer.discardTransaction]
    split <;> exact hc
  | unobserve ht =>
    rw [QDocdbServer.unobserve]
    split
    · exact hc
    · split
      · exact hc
      · split
        · rw [unobserveAt]
          split <;> exact hc
        · exact hc
  | exclusiveLock ht =>
    rw [QDocdbServer.exclusiveLock]
    split <;> exact hc
  | unlock ht =>
    rw [QDocdbServer.unlock]
    split
    · exact hc
    · split <;> exact hc
  | operation ht hne =>
    rw [QDocdbServer.operation]
    split
    · exact hopen
    · split <;> exact hopen
  | newTransaction ht hcoll =>
    show IsInt (s.openCollectionOf E o).getNextTransactionId.2
    exact isInt_nextTransactionIdLoop hopen _
  | cannotOpenDatabase hurl => exact hc
  | emptyCollectionName hurl => exact hc
  | _ => exact hopen

/-- The counter is an `int`. -/
theorem serverInvariant_isInt_transactionId {ok : QDocdbServer → Event → Prop} :
    ServerInvariant E ok (fun s => IsInt s.transactionId)
      (fun _ _ s => IsInt s.transactionId) (fun _ _ _ _ => True) where
  started := by decide
  connected := fun hI _ => hI
  disconnected := fun hI _ _ => hI
  notified := fun {s pending id reply} hI _ => by
    rw [observeChanged]
    split <;> exact hI
  arrived := fun hI _ _ => ⟨hI, trivial⟩
  taken := fun hI _ _ => hI
  dequeued := fun hI _ _ => ⟨hI, trivial⟩
  done := fun hI _ => hI
  opened := fun {s client n o} hI _ => by
    obtain ⟨databases, heq, -⟩ := openDatabaseOf_eq E s o
    rw [heq]
    exact ⟨hI, trivial⟩
  waits := fun hI _ _ _ => hI
  served := fun hI _ _ _ hserved => hserved.isInt_transactionId hI

/-- **In every run** of the server a new transaction gets a fresh number, as long as fewer than
`2 ^ 31` are open. -/
theorem givesFreshId_of_reachable {ok : QDocdbServer → Event → Prop} (h : ServerReachable E ok s)
    (hlive : s.transactions.keys.length < 2 ^ 31) : s.GivesFreshId :=
  (givesFreshId_of_isInt (serverInvariant_isInt_transactionId.reachable h) hlive).1

end Runs

end QDocdbServer
end Qdocdb
