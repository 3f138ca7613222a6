import BlogSample.ParameterConvertor.Settlement

/-!
# Two Ways to Convert Bets

`GetTxn` is `FilerSettleList` after the conversion of normal bets has become a
matter of subclasses. The subclass for normal bets converts each of them as
before, so the query that `GetTxn` builds first is the right one. What it would
give is never added to the result. The two methods agree exactly as long as
there is no normal bet to convert.

## Main definitions

* `Settleable`: A bet has a type and at least one leg.
* `HasKind`: A bet has the kind and the status that is looked for.

## Theorems

* `normalTxn_eq`, `normalQuery_eq`: The two ways to convert normal bets.
* `getTxn_eq_iff`: When the two methods agree.
* `getTxn_ne`: A request with a normal bet.
-/

namespace BlogSample

namespace ParameterConvertor

open DotNet

section

variable {Date Amount : Type} (toLower : String → String)
  (serializeObject : Leg ⊕ List Leg → String)

/-- A bet has a type and at least one leg. -/
def Settleable (o : SettleBetDetail Amount) : Prop :=
  o.wagerGroupType.isSome ∧ (o.detail.getD []) ≠ []

/-- A bet of the kind and the status that is looked for. -/
def HasKind (kind : String) (betStatus : Int) (o : SettleBetDetail Amount) : Prop :=
  o.wagerGroupType.map toLower = some kind ∧ o.status = betStatus

instance (kind : String) (betStatus : Int) (o : SettleBetDetail Amount) :
    Decidable (HasKind toLower kind betStatus o) :=
  inferInstanceAs (Decidable (_ ∧ _))

variable {o : SettleBetDetail Amount}

/-- Whether a bet number is in the list, in the two ways it is asked. -/
theorem anyM_eq (s : String) (l : List (Option String)) :
    l.anyM (fun a => (pure (a = some s) : Except Exn Bool)) = .ok (l.contains (some s)) := by
  induction l with
  | nil => rfl
  | cons a l ih =>
      rw [List.anyM_cons, List.contains_cons]
      by_cases ha : a = some s
      · rw [ha, beq_self_eq_true, decide_eq_true rfl]
        rfl
      · rw [beq_false_of_ne (Ne.symm ha), decide_eq_false ha]
        exact ih

/-- The two ways to convert a normal bet are the same, exceptions included. -/
theorem normalTxn_eq (dataModel : SettleBetRequest Date Amount) (productGroupId : ProductGroup)
    (betStatus : Int) (cancelWagerNo : List (Option String)) (o : SettleBetDetail Amount) :
    TxnProviderBase.normalTxn serializeObject normal dataModel productGroupId betStatus
        cancelWagerNo o =
      Program.normalTxn serializeObject dataModel productGroupId betStatus cancelWagerNo o := by
  cases hfirst : first o.detail with
  | error e =>
      -- Both methods throw at the number of the bet.
      unfold TxnProviderBase.normalTxn Program.normalTxn TxnProviderBase.betNo normal
      simp only [hfirst]
      rfl
  | ok x =>
      have hbetNo : (normal : TxnProviderBase Date Amount).betNo o =
          .ok (longToString x.betNo) := by
        unfold TxnProviderBase.betNo normal
        simp only [hfirst]
        rfl
      have hamount : (normal : TxnProviderBase Date Amount).getReturnAmount o =
          .ok x.betReturnAmt := by
        unfold normal
        simp only [hfirst]
        rfl
      -- `Any` asks for the number again for each entry.
      have hany : (normal : TxnProviderBase Date Amount).anyCanceled betStatus cancelWagerNo o =
          isCanceled betStatus cancelWagerNo o := by
        unfold TxnProviderBase.anyCanceled isCanceled
        rw [hbetNo, hfirst]
        by_cases hstatus : betStatus = 4
        · rw [if_pos hstatus, if_pos hstatus]
          exact anyM_eq (longToString x.betNo) cancelWagerNo
        · rw [if_neg hstatus, if_neg hstatus]
      unfold TxnProviderBase.normalTxn Program.normalTxn
      rw [hany, hbetNo, hamount, hfirst]
      rfl

/-- So the query that `GetTxn` builds first is the one for normal bets. -/
theorem normalQuery_eq (dataModel : SettleBetRequest Date Amount) (productGroupId : ProductGroup)
    (betStatus : Int) (cancelWagerNo : List (Option String)) :
    TxnProviderBase.normalQuery toLower serializeObject normal dataModel productGroupId betStatus
        cancelWagerNo =
      whereSelect dataModel.bets (hasKind toLower (some "normal") betStatus)
        (Program.normalTxn serializeObject dataModel productGroupId betStatus cancelWagerNo) := by
  unfold TxnProviderBase.normalQuery
  exact congrArg _ (funext (normalTxn_eq serializeObject dataModel productGroupId betStatus
    cancelWagerNo))

/-- The test of a bet that has a type. -/
theorem hasKind_ok (h : Settleable o) (kind : String) (betStatus : Int) :
    hasKind toLower (some kind) betStatus o = .ok (decide (HasKind toLower kind betStatus o)) := by
  rcases o with ⟨memberCode, confirmationId, totalReturnAmt, status, wagerGroupType, parlayGameID,
    detail⟩
  rcases wagerGroupType with _ | t
  · exact absurd h.1 Bool.false_ne_true
  · exact congrArg Except.ok (Bool.decide_and _ _).symm

/-- Nothing throws on a normal bet with a leg. -/
theorem normalTxn_ok (h : Settleable o) (dataModel : SettleBetRequest Date Amount)
    (productGroupId : ProductGroup) (betStatus : Int) (cancelWagerNo : List (Option String)) :
    ∃ txn, Program.normalTxn serializeObject dataModel productGroupId betStatus cancelWagerNo o =
      .ok txn := by
  rcases o with ⟨memberCode, confirmationId, totalReturnAmt, status, wagerGroupType, parlayGameID,
    detail⟩
  rcases detail with _ | _ | ⟨x, detail⟩
  · exact absurd rfl h.2
  · exact absurd rfl h.2
  · unfold Program.normalTxn isCanceled firstLeg
    split_ifs
    all_goals exact ⟨_, rfl⟩

/-- Nothing throws on a parlay with a leg. -/
theorem parlayTxn_ok (h : Settleable o) (dataModel : SettleBetRequest Date Amount)
    (productGroupId : ProductGroup) (betStatus : Int) (cancelWagerNo : List (Option String)) :
    ∃ txn, parlayTxn serializeObject dataModel productGroupId betStatus cancelWagerNo o =
      .ok txn := by
  rcases o with ⟨memberCode, confirmationId, totalReturnAmt, status, wagerGroupType, parlayGameID,
    detail⟩
  rcases detail with _ | detail
  · exact absurd rfl h.2
  · unfold parlayTxn
    dsimp only
    split_ifs
    all_goals exact ⟨_, rfl⟩

/-- What `FilerSettleList` returns for bets that have a type and a leg, and
    what of it `GetTxn` returns. -/
theorem filerSettleList_ok {dataModel : SettleBetRequest Date Amount}
    {bets : List (SettleBetDetail Amount)} (hbets : dataModel.bets = some bets)
    (h : ∀ o ∈ bets, Settleable o) (productGroupId : ProductGroup) (betStatus : Int)
    (cancelWagerNo : Option (List (Option String))) :
    ∃ settled parlay : List (Txn Date Amount),
      settled.length = (bets.filter (fun o => HasKind toLower "normal" betStatus o)).length ∧
      Program.filerSettleList toLower serializeObject dataModel productGroupId betStatus
        cancelWagerNo = .ok (settled ++ parlay) ∧
      TxnProviderBase.getTxn toLower serializeObject normal dataModel productGroupId betStatus
        cancelWagerNo = .ok parlay := by
  have htest (kind : String) : ∀ o ∈ bets, hasKind toLower (some kind) betStatus o =
      .ok (decide (HasKind toLower kind betStatus o)) :=
    fun o ho => hasKind_ok toLower (h o ho) kind betStatus
  rcases enumerate_ok (htest "normal") (fun o ho => normalTxn_ok serializeObject (h o ho)
    dataModel productGroupId betStatus (cancelWagerNo.getD [])) with ⟨settled, hsettled, hall⟩
  rcases enumerate_ok (htest "parlay") (fun o ho => parlayTxn_ok serializeObject (h o ho)
    dataModel productGroupId betStatus (cancelWagerNo.getD [])) with ⟨parlay, hparlay, -⟩
  have hfirst := whereSelect_ok hsettled
  have hsecond := whereSelect_ok hparlay
  rw [← hbets] at hfirst hsecond
  refine ⟨settled, parlay, hall.length_eq.symm, ?_, ?_⟩
  · simp only [Program.filerSettleList, hfirst, hsecond]
    rfl
  · simp only [TxnProviderBase.getTxn, normalQuery_eq, hfirst, hsecond]
    rfl

/-- If every bet has a type and a leg, `FilerSettleList` returns, and `GetTxn`
    does as it does exactly if there is no normal bet with the status. -/
theorem getTxn_eq_iff {dataModel : SettleBetRequest Date Amount}
    (h : ∀ bets, dataModel.bets = some bets → ∀ o ∈ bets, Settleable o)
    (productGroupId : ProductGroup) (betStatus : Int)
    (cancelWagerNo : Option (List (Option String))) :
    (∀ bets, dataModel.bets = some bets → ∃ txns,
      Program.filerSettleList toLower serializeObject dataModel productGroupId betStatus
        cancelWagerNo = .ok txns) ∧
    (TxnProviderBase.getTxn toLower serializeObject normal dataModel productGroupId betStatus
        cancelWagerNo =
      Program.filerSettleList toLower serializeObject dataModel productGroupId betStatus
        cancelWagerNo ↔
      ∀ bets, dataModel.bets = some bets → ∀ o ∈ bets, ¬ HasKind toLower "normal" betStatus o) := by
  refine ⟨fun bets hbets => ?_, ?_⟩
  · rcases filerSettleList_ok toLower serializeObject hbets (h bets hbets) productGroupId betStatus
      cancelWagerNo with ⟨settled, parlay, -, hfiler, -⟩
    exact ⟨_, hfiler⟩
  · cases hbets : dataModel.bets with
    | none =>
        -- Without a list of bets, both methods throw at their first query.
        refine iff_of_true ?_ (fun bets hnone => absurd hnone (by simp only [reduceCtorEq,
          not_false_eq_true]))
        simp only [TxnProviderBase.getTxn, Program.filerSettleList, TxnProviderBase.normalQuery,
          whereSelect, hbets]
        rfl
    | some bets =>
        rcases filerSettleList_ok toLower serializeObject hbets (h bets hbets) productGroupId
          betStatus cancelWagerNo with ⟨settled, parlay, hlen, hfiler, hget⟩
        rw [hfiler, hget, Except.ok.injEq]
        constructor
        · intro hsame bets' hbets' o ho hnormal
          cases hbets'
          have hempty : settled = [] := List.self_eq_append_left.mp hsame
          rw [hempty, List.length_nil, eq_comm, List.length_eq_zero_iff,
            List.filter_eq_nil_iff] at hlen
          exact hlen o ho (decide_eq_true hnormal)
        · intro hnone
          have hempty : bets.filter (fun o => HasKind toLower "normal" betStatus o) = [] := by
            rw [List.filter_eq_nil_iff]
            intro o ho hnormal
            exact hnone bets rfl o ho (of_decide_eq_true hnormal)
          rw [hempty, List.length_nil, List.length_eq_zero_iff] at hlen
          rw [hlen, List.nil_append]

end

/-- A request with one bet. -/
def request (wagerGroupType : String) : SettleBetRequest Nat Nat where
  tradeId := some "G1"
  productType := some "Baccarat"
  endDate := none
  transactionId := 7
  bets := some [
    { memberCode := some "M1"
      confirmationId := 20
      totalReturnAmt := 100
      status := 1
      wagerGroupType := some wagerGroupType
      parlayGameID := some "P1"
      detail := some [
        { betNo := 30
          seq := 1
          betType := some "B"
          selection := some "S"
          betReturnAmt := 90 }] }]

/-- It has a type and a leg. -/
theorem request_settleable (wagerGroupType : String) :
    ∀ bets, (request wagerGroupType).bets = some bets → ∀ o ∈ bets, Settleable o := by
  intro bets hbets o ho
  cases hbets
  cases List.mem_singleton.mp ho
  exact ⟨rfl, List.cons_ne_nil _ _⟩

/-- `ToLower` of a text without letters outside ASCII. -/
def asciiLower (s : String) : String :=
  String.ofList (s.toList.map Char.toLower)

/-- A parlay with the status is settled by both methods. -/
theorem getTxn_eq_iff_parlay :
    TxnProviderBase.getTxn asciiLower (fun _ => "json") normal (request "Parlay") .hiLife 1 none =
      Program.filerSettleList asciiLower (fun _ => "json") (request "Parlay") .hiLife 1 none := by
  refine (getTxn_eq_iff asciiLower (fun _ => "json") (request_settleable "Parlay") .hiLife 1
    none).2.mpr ?_
  intro bets hbets o ho
  cases hbets
  cases List.mem_singleton.mp ho
  decide +kernel

/-- A request with a normal bet, which one of the methods loses. -/
theorem getTxn_ne : ¬ ∀ (toLower : String → String) (serializeObject : Leg ⊕ List Leg → String)
    (dataModel : SettleBetRequest Nat Nat) (productGroupId : ProductGroup) (betStatus : Int)
    (cancelWagerNo : Option (List (Option String))),
    (∀ bets, dataModel.bets = some bets → ∀ o ∈ bets, Settleable o) →
    TxnProviderBase.getTxn toLower serializeObject normal dataModel productGroupId betStatus
        cancelWagerNo =
      Program.filerSettleList toLower serializeObject dataModel productGroupId betStatus
        cancelWagerNo := by
  intro h
  have hsame := h asciiLower (fun _ => "json") (request "Normal") .hiLife 1 none
    (request_settleable "Normal")
  -- `GetTxn` returns nothing.
  have hlost : TxnProviderBase.getTxn asciiLower (fun _ => "json") normal (request "Normal")
      .hiLife 1 none = .ok [] := by
    decide +kernel
  have hkept : Program.filerSettleList asciiLower (fun _ => "json") (request "Normal") .hiLife 1
      none ≠ .ok [] := by
    decide +kernel
  exact hkept (hsame.symm.trans hlost)

end ParameterConvertor

end BlogSample
