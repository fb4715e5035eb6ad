import CreditsNode.Csdb.Transaction

/-!
# Wallet ids

`cs::WalletsIds` numbers the wallets of the chain, so that a transaction can name a wallet by its
number. The container of the source is indexed by address and by id; the model is the list of its
elements.
-/

namespace CreditsNode

open Effect

/-- `WalletsIds`: the numbers given to addresses and the next one. -/
structure WalletsIds where
  data : List (Address × WalletId)
  nextId : WalletId
deriving DecidableEq

namespace WalletsIds

def new : WalletsIds := ⟨[], 0⟩

/-- `Normal::find`. -/
def find (ids : WalletsIds) (address : Address) : Option WalletId :=
  match address with
  | .walletId id => some id
  | .publicKey _ => (ids.data.find? fun wallet => wallet.1 = address).map Prod.snd

/-- `Normal::findaddr`. -/
def findaddr (ids : WalletsIds) (id : WalletId) : Option Address :=
  (ids.data.find? fun wallet => wallet.2 = id).map Prod.fst

/-- `WalletsCache::Updater::toPublicKey`: a number that is not known stands for the bytes it is
stored in. -/
def toPublicKey (ids : WalletsIds) (addr : Address) : PublicKey :=
  match addr with
  | .publicKey key => key
  | .walletId id =>
    match ids.findaddr id with
    | some res => res.toPublicKey
    | none => addr.toPublicKey

/-- `data_.insert({address, id})`: refused when the address or the id is there already. The result
is the id of the element that is now in the container, or of the one that was in the way. -/
def insertWallet (address : Address) (id : WalletId) :
    EStateM Fault WalletsIds (WalletId × Bool) := fun ids =>
  match ids.data.find? (fun wallet => wallet.1 = address) with
  | some wallet => .ok (wallet.2, false) ids
  | none =>
    if ids.data.any fun wallet => wallet.2 = id then .ok (id, false) ids
    else .ok (id, true) { ids with data := (address, id) :: ids.data }

/-- `numeric_limits<WalletId>::max() / 2`. -/
def idLimit : WalletId := 2147483647

def insert (address : Address) (id : WalletId) : EStateM Fault WalletsIds Bool :=
  match address with
  | .walletId _ => pure false
  | .publicKey _ => do
    let (_, inserted) ← insertWallet address id
    if inserted && id ≥ (← get).nextId then
      if id ≥ idLimit then
        throw (.exception "idNormal >= numeric_limits<WalletId>::max() / 2")
      modify ({ · with nextId := id + 1 })
    return inserted

/-- `Normal::get`: the id of the address, and whether it is a new one. -/
def getId (address : Address) : EStateM Fault WalletsIds (WalletId × Bool) :=
  match address with
  | .walletId id => pure (id, false)
  | .publicKey _ => do
    let nextId := (← get).nextId
    let (id, inserted) ← insertWallet address nextId
    if inserted then
      if nextId ≥ idLimit then
        throw (.exception "nextId_ >= numeric_limits<WalletId>::max() / 2")
      modify ({ · with nextId := nextId + 1 })
    return (id, inserted)

/-- `Normal::remove`. The number that the next new wallet gets goes down by one, whichever wallet is
removed. -/
def remove (ids : WalletsIds) (address : Address) : WalletsIds :=
  match address with
  | .walletId _ => ids
  | .publicKey _ =>
    if ids.data.any fun wallet => wallet.1 = address then
      { data := ids.data.eraseP fun wallet => wallet.1 = address
        nextId := if ids.nextId > 0 then ids.nextId - 1 else ids.nextId }
    else ids

end WalletsIds

end CreditsNode
