import BlogSample.Int32
import BlogSample.Linq

/-!
# Converting Settled Bets

A request to settle bets becomes a list of transactions, one for each normal
bet and then one for each parlay. `Program.FilerSettleList` does this at once.
`TxnProviderBase.GetTxn` leaves what is special about a normal bet to a
subclass. The other kinds of bets are skipped by both.

Dates and amounts are only copied, so any types stand for them. `ToLower`
depends on the culture and `JsonConvert` is a package, so both are functions
that may be any. The properties of a `Txn` that neither method sets keep their
defaults and are left out.

## Main definitions

* `SettleBetRequest`, `SettleBetDetail`, `BetDetail`: What is converted.
* `Txn`: A transaction.
* `Program.filerSettleList`: `Program.FilerSettleList`.
* `TxnProviderBase.getTxn`: `TxnProviderBase.GetTxn`.
* `normal`: The subclass for normal bets.
-/

namespace BlogSample

namespace ParameterConvertor

open DotNet

/-- A leg of a bet. -/
structure BetDetail (Amount : Type) where
  betNo : Int
  seq : Int
  betType : Option String
  selection : Option String
  betReturnAmt : Amount
  deriving DecidableEq

/-- A bet. -/
structure SettleBetDetail (Amount : Type) where
  memberCode : Option String
  confirmationId : Int
  totalReturnAmt : Amount
  status : Int
  wagerGroupType : Option String
  parlayGameID : Option String
  detail : Option (List (BetDetail Amount))
  deriving DecidableEq

/-- The bets of a game. -/
structure SettleBetRequest (Date Amount : Type) where
  tradeId : Option String
  productType : Option String
  endDate : Option Date
  transactionId : Int
  bets : Option (List (SettleBetDetail Amount))
  deriving DecidableEq

inductive ProductGroup where
  | sevenEleven
  | familyMart
  | hiLife
  deriving DecidableEq

inductive ProcessStatus where
  | confirmed
  | done
  | canceled
  | void
  deriving DecidableEq

/-- The properties of a transaction that are set. -/
structure Txn (Date Amount : Type) where
  productDatetime : Option Date
  productGroupID : ProductGroup
  processCode : Option String
  processType : Option String
  processNo : String
  transactionID : String
  memberCode : Option String
  returnAmount : Option Amount
  processStatus : ProcessStatus
  userDefinedString1 : Option String
  userDefinedString2 : String
  userDefinedString3 : String
  userDefinedInteger1 : Option Int
  deriving DecidableEq

/-- The anonymous object that is written as JSON. -/
structure Leg where
  seq : Int
  gameID : Option String
  betType : Option String
  selection : Option String

/-- `long.ToString()`. -/
def longToString (z : Int) : String :=
  String.ofList (intToString z)

/-- `GetBrandWagerStatus`, which both classes have. The status 4 is not among
    the cases. -/
def getBrandWagerStatus (status : Int) : ProcessStatus :=
  if status = 1 then .confirmed
  else if status = 2 then .done
  else if status = 3 then .canceled
  else if status = 5 then .void
  else .confirmed

section

variable {Date Amount : Type}

/-- `new { Seq, GameID, BetType, Selection }`. -/
def leg (dataModel : SettleBetRequest Date Amount) (x : BetDetail Amount) : Leg where
  seq := x.seq
  gameID := dataModel.tradeId
  betType := x.betType
  selection := x.selection

variable (toLower : String → String) (serializeObject : Leg ⊕ List Leg → String)

/-- `x.WagerGroupType.ToLower() == kind && x.Status == betStatus`. -/
def hasKind (kind : Option String) (betStatus : Int) (x : SettleBetDetail Amount) :
    Except Exn Bool := do
  let wagerGroupType ← nonNull x.wagerGroupType
  pure (some (toLower wagerGroupType) = kind && x.status = betStatus)

/-- The selector for parlays, which both methods have. -/
def parlayTxn (dataModel : SettleBetRequest Date Amount) (productGroupId : ProductGroup)
    (betStatus : Int) (cancelWagerNo : List (Option String)) (o : SettleBetDetail Amount) :
    Except Exn (Txn Date Amount) := do
  let userDefinedString2 ←
    if getBrandWagerStatus o.status = .void then
      match o.detail with
      | none => throw .argumentNull
      | some detail => pure (serializeObject (.inr (detail.map (leg dataModel))))
    else pure ""
  let canceled := betStatus = 4 && cancelWagerNo.contains (some (longToString o.confirmationId))
  pure
    { productDatetime := dataModel.endDate
      productGroupID := productGroupId
      processCode := o.parlayGameID
      processType := dataModel.productType
      processNo := longToString o.confirmationId
      transactionID :=
        longToString o.confirmationId ++ "_" ++ longToString dataModel.transactionId
      memberCode := o.memberCode
      returnAmount := some o.totalReturnAmt
      processStatus := if canceled then .canceled else getBrandWagerStatus o.status
      userDefinedString1 := o.wagerGroupType
      userDefinedString2 := userDefinedString2
      userDefinedString3 := longToString dataModel.transactionId
      userDefinedInteger1 := if canceled then some 4 else none }

/-- `UserDefinedString2` of a normal bet, which is its first leg if the bet is
    void. -/
def firstLeg (dataModel : SettleBetRequest Date Amount) (o : SettleBetDetail Amount) :
    Except Exn String :=
  if getBrandWagerStatus o.status = .void then do
    let x ← first o.detail
    pure (serializeObject (.inl (leg dataModel x)))
  else pure ""

/-- `betStatus == 4 && cancelWagerNo.Contains(o.Detail.First().BetNo.ToString())`. -/
def isCanceled (betStatus : Int) (cancelWagerNo : List (Option String))
    (o : SettleBetDetail Amount) : Except Exn Bool :=
  if betStatus = 4 then do
    let x ← first o.detail
    pure (cancelWagerNo.contains (some (longToString x.betNo)))
  else pure false

namespace Program

/-- The selector for normal bets in `FilerSettleList`. -/
def normalTxn (dataModel : SettleBetRequest Date Amount) (productGroupId : ProductGroup)
    (betStatus : Int) (cancelWagerNo : List (Option String)) (o : SettleBetDetail Amount) :
    Except Exn (Txn Date Amount) := do
  let x ← first o.detail
  let canceled ← isCanceled betStatus cancelWagerNo o
  let userDefinedString2 ← firstLeg serializeObject dataModel o
  let canceled' ← isCanceled betStatus cancelWagerNo o
  pure
    { productDatetime := dataModel.endDate
      productGroupID := productGroupId
      processCode := dataModel.tradeId
      processType := dataModel.productType
      processNo := longToString x.betNo
      transactionID := longToString x.betNo ++ "_" ++ longToString dataModel.transactionId
      memberCode := o.memberCode
      returnAmount := some x.betReturnAmt
      processStatus := if canceled then .canceled else getBrandWagerStatus o.status
      userDefinedString1 := o.wagerGroupType
      userDefinedString2 := userDefinedString2
      userDefinedString3 := longToString dataModel.transactionId
      userDefinedInteger1 := if canceled' then some 4 else none }

/-- `FilerSettleList(dataModel, productGroupId, betStatus, cancelWagerNo)`. -/
def filerSettleList (dataModel : SettleBetRequest Date Amount) (productGroupId : ProductGroup)
    (betStatus : Int) (cancelWagerNo : Option (List (Option String))) :
    Except Exn (List (Txn Date Amount)) := do
  let cancelWagerNo := cancelWagerNo.getD []
  let normal ← whereSelect dataModel.bets (hasKind toLower (some "normal") betStatus)
    (normalTxn serializeObject dataModel productGroupId betStatus cancelWagerNo)
  let result ← addRange [] normal
  let parlay ← whereSelect dataModel.bets (hasKind toLower (some "parlay") betStatus)
    (parlayTxn serializeObject dataModel productGroupId betStatus cancelWagerNo)
  addRange result parlay

end Program

/-- A subclass of `TxnProviderBase`, by its overrides. -/
structure TxnProviderBase (Date Amount : Type) where
  wagerGroupType : Option String
  getBetNo : SettleBetDetail Amount → Except Exn (Option String)
  getReturnAmount : SettleBetDetail Amount → Except Exn Amount
  getProcessCode : SettleBetRequest Date Amount → Except Exn (Option String)

namespace TxnProviderBase

/-- `GetBetNo(o).ToString()`. -/
def betNo (provider : TxnProviderBase Date Amount) (o : SettleBetDetail Amount) :
    Except Exn String := do
  let s ← provider.getBetNo o
  nonNull s

/-- `betStatus == 4 && cancelWagerNo.Any(a => a == GetBetNo(o).ToString())`. -/
def anyCanceled (provider : TxnProviderBase Date Amount) (betStatus : Int)
    (cancelWagerNo : List (Option String)) (o : SettleBetDetail Amount) : Except Exn Bool :=
  if betStatus = 4 then
    cancelWagerNo.anyM (fun a => do
      let s ← provider.betNo o
      pure (a = some s))
  else pure false

/-- The selector of the first query in `GetTxn`. -/
def normalTxn (provider : TxnProviderBase Date Amount) (dataModel : SettleBetRequest Date Amount)
    (productGroupId : ProductGroup) (betStatus : Int) (cancelWagerNo : List (Option String))
    (o : SettleBetDetail Amount) : Except Exn (Txn Date Amount) := do
  let processCode ← provider.getProcessCode dataModel
  let processNo ← provider.betNo o
  let betNo ← provider.betNo o
  let returnAmount ← provider.getReturnAmount o
  let canceled ← provider.anyCanceled betStatus cancelWagerNo o
  let userDefinedString2 ← firstLeg serializeObject dataModel o
  let canceled' ← isCanceled betStatus cancelWagerNo o
  pure
    { productDatetime := dataModel.endDate
      productGroupID := productGroupId
      processCode := processCode
      processType := dataModel.productType
      processNo := processNo
      transactionID := betNo ++ "_" ++ longToString dataModel.transactionId
      memberCode := o.memberCode
      returnAmount := some returnAmount
      processStatus := if canceled then .canceled else getBrandWagerStatus o.status
      userDefinedString1 := o.wagerGroupType
      userDefinedString2 := userDefinedString2
      userDefinedString3 := longToString dataModel.transactionId
      userDefinedInteger1 := if canceled' then some 4 else none }

/-- The first query in `GetTxn`. -/
def normalQuery (provider : TxnProviderBase Date Amount)
    (dataModel : SettleBetRequest Date Amount) (productGroupId : ProductGroup) (betStatus : Int)
    (cancelWagerNo : List (Option String)) : Except Exn (Query (Txn Date Amount)) :=
  whereSelect dataModel.bets (hasKind toLower provider.wagerGroupType betStatus)
    (normalTxn serializeObject provider dataModel productGroupId betStatus cancelWagerNo)

/-- `GetTxn(dataModel, productGroupId, betStatus, cancelWagerNo)`. -/
def getTxn (provider : TxnProviderBase Date Amount) (dataModel : SettleBetRequest Date Amount)
    (productGroupId : ProductGroup) (betStatus : Int)
    (cancelWagerNo : Option (List (Option String))) : Except Exn (List (Txn Date Amount)) := do
  let cancelWagerNo := cancelWagerNo.getD []
  let result := []
  -- The first query is built, and then nothing is done with it.
  let _ ← normalQuery toLower serializeObject provider dataModel productGroupId betStatus
    cancelWagerNo
  let parlay ← whereSelect dataModel.bets (hasKind toLower (some "parlay") betStatus)
    (parlayTxn serializeObject dataModel productGroupId betStatus cancelWagerNo)
  addRange result parlay

end TxnProviderBase

/-- The subclass for normal bets. -/
def normal : TxnProviderBase Date Amount where
  wagerGroupType := some "normal"
  getBetNo := fun o => do
    let x ← first o.detail
    pure (some (longToString x.betNo))
  getReturnAmount := fun o => do
    let x ← first o.detail
    pure x.betReturnAmt
  getProcessCode := fun dataModel => pure dataModel.tradeId

end

end ParameterConvertor

end BlogSample
