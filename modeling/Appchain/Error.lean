import Appchain.Fault

/-!
# Errors

An error is its cause; the wording is one `message` per type. Configuration,
store and genesis errors halt the node. A `TxError` only rejects a transaction
and has a numeric code, except that a store error inside one halts as well.
-/

namespace Appchain

/-- What can be sealed against registration. -/
inductive Sealable where
  | typeRegistry
  | router
  | storeRegistry
  | multiStore
  deriving DecidableEq, Repr

def Sealable.name : Sealable → String
  | typeRegistry => "codec"
  | router => "router"
  | storeRegistry => "store registry"
  | multiStore => "multistore"

inductive ConfigError where
  | duplicateStoreKey (store : String)
  | duplicateMount (store : String)
  | duplicateRoute (route : String)
  | invalidRouteName (route : String)
  | duplicateInterface (interface : String)
  | unknownInterface (interface : String)
  | duplicateTypeTag (tag : String)
  | isSealed (what : Sealable)
  deriving DecidableEq, Repr

def ConfigError.message : ConfigError → String
  | duplicateStoreKey s => "store key '" ++ s ++ "' is already declared"
  | duplicateMount s => "store '" ++ s ++ "' is already mounted"
  | duplicateRoute r => "route '" ++ r ++ "' is already registered"
  | invalidRouteName r => "route name '" ++ r ++ "' must be non-empty and alphanumeric"
  | duplicateInterface i => "interface '" ++ i ++ "' is already registered"
  | unknownInterface i => "interface '" ++ i ++ "' is not registered"
  | duplicateTypeTag t => "type tag '" ++ t ++ "' is already registered"
  | isSealed what => what.name ++ " is sealed"

/-- What is wrong with the record of the last commit. -/
inductive MetadataFault where
  | versionBytes
  | noAppHash
  | appHashBytes
  deriving DecidableEq, Repr

def MetadataFault.message : MetadataFault → String
  | versionBytes => "invalid version bytes"
  | noAppHash => "missing app hash"
  | appHashBytes => "invalid app hash bytes"

inductive StoreError where
  | notMounted (store : String)
  | corrupted (fault : MetadataFault)
  deriving DecidableEq, Repr

def StoreError.message : StoreError → String
  | notMounted s => "store '" ++ s ++ "' is not mounted"
  | corrupted f => "corrupt store metadata: " ++ f.message

inductive CodecError where
  | unknownType (interface tag : String)
  | unregistered (tag : String)
  | decode (fault : Fault)
  deriving DecidableEq

def CodecError.message : CodecError → String
  | unknownType i t => "unknown type '" ++ t ++ "' for interface " ++ i
  | unregistered t => "type '" ++ t ++ "' is not registered"
  | decode f => "decode error: " ++ f.message

/-- Stored state that no sequence of transactions leaves behind, or a note of the caller. -/
inductive InternalFault where
  | missing (key : String)
  | corruptTrend
  | corruptChainId
  | note (text : String)
  deriving DecidableEq, Repr

def InternalFault.message : InternalFault → String
  | missing k => "pow state '" ++ k ++ "' missing"
  | corruptTrend => "corrupt trend: " ++ Fault.malformed.message
  | corruptChainId => "corrupt ibc key: " ++ Fault.malformed.message
  | note text => text

inductive AuthorizationFault where
  | signatureCount (expected actual : Nat)
  | accountNumber (signer : Address) (expected actual : UInt64)
  | malformedSignature (fault : Hex.Fault)
  | emptySignature (signer : Address)
  deriving DecidableEq

def AuthorizationFault.message : AuthorizationFault → String
  | signatureCount e a => "expected " ++ toString e ++ " signatures, got " ++ toString a
  | accountNumber s e a =>
    "account number mismatch for " ++ toString s ++ ": expected " ++ toString e ++ ", got "
      ++ toString a
  | malformedSignature f => "malformed signature: " ++ f.message
  | emptySignature s => "empty signature for " ++ toString s

inductive PublicKeyFault where
  | notHex (fault : Hex.Fault)
  | foreign (signer : Address)
  | changed (signer : Address)
  | emptyValidatorKey
  deriving DecidableEq

def PublicKeyFault.message : PublicKeyFault → String
  | notHex f => f.message
  | foreign s => "public key does not match signer " ++ toString s
  | changed s => "public key differs from the one recorded for " ++ toString s
  | emptyValidatorKey => "empty validator key"

inductive CoinsFault where
  | notCoins (fault : Coins.Fault)
  | emptySend
  | emptyPacket
  | emptyStake
  | notBondable (bondable denom : String)
  | balanceOverflow (holder : Address)
  | powerOverflow
  | feesOverflow
  deriving DecidableEq

def CoinsFault.message : CoinsFault → String
  | notCoins f => f.message
  | emptySend => "send amount is empty"
  | emptyPacket => "packet carries no coins"
  | emptyStake => "stake is empty"
  | notBondable b d => "only " ++ b ++ " can be bonded, got " ++ d
  | balanceOverflow a => "balance overflow for " ++ toString a
  | powerOverflow => "bond power overflow"
  | feesOverflow => "collected fees overflow"

inductive MessageFault where
  | noMessages
  | zeroDifficulty
  | foreignProof
  | aboveTarget (difficulty : UInt64)
  | wrongCount (expected actual : UInt64)
  | wrongDifficulty (expected actual : UInt64)
  | emptyTrend
  | emptyAnswer
  | wrongAnswer
  | chainId (chain : String)
  | sameChain
  | noBond (holder : Address)
  deriving DecidableEq

def MessageFault.message : MessageFault → String
  | noMessages => "transaction has no messages"
  | zeroDifficulty => "difficulty must be positive"
  | foreignProof => "proof does not match sender, count and nonce"
  | aboveTarget d => "proof is not below the target for difficulty " ++ toString d
  | wrongCount e a => "invalid count: expected " ++ toString e ++ ", got " ++ toString a
  | wrongDifficulty e a => "invalid difficulty: expected " ++ toString e ++ ", got " ++ toString a
  | emptyTrend => "trend cannot be empty"
  | emptyAnswer => "answer cannot be empty"
  | wrongAnswer => "incorrect cool answer"
  | chainId c => "invalid chain id '" ++ c ++ "'"
  | sameChain => "source and destination chains are identical"
  | noBond a => toString a ++ " has no bond"

inductive TxError where
  | internal (fault : InternalFault)
  | codec (error : CodecError)
  | store (error : StoreError)
  | invalidSequence (expected actual : UInt64)
  | unauthorized (fault : AuthorizationFault)
  | insufficientFunds (holder : Address) (available needed : Coins)
  | unknownRoute (route : String)
  | unknownRequest (route tag : String)
  | invalidAddress (fault : Address.Fault)
  | invalidPublicKey (fault : PublicKeyFault)
  | unknownAddress (holder : Address)
  | invalidCoins (fault : CoinsFault)
  | memoTooLarge (limit : UInt64) (actual : Nat)
  | insufficientFee (reason : String)
  | tooManySignatures (limit : UInt64) (actual : Nat)
  | invalidMessage (fault : MessageFault)
  deriving DecidableEq

namespace TxError

def code : TxError → Nat
  | internal _ | store _ => 1
  | codec _ => 2
  | invalidSequence .. => 3
  | unauthorized _ => 4
  | insufficientFunds .. => 5
  | unknownRoute _ | unknownRequest .. => 6
  | invalidAddress _ => 7
  | invalidPublicKey _ => 8
  | unknownAddress _ => 9
  | invalidCoins _ => 11
  | memoTooLarge .. => 13
  | insufficientFee _ => 14
  | tooManySignatures .. => 15
  | invalidMessage _ => 16

def message : TxError → String
  | internal f => "internal error: " ++ f.message
  | codec e => e.message
  | store e => e.message
  | invalidSequence e a =>
    "invalid sequence: expected " ++ toString e ++ ", got " ++ toString a
  | unauthorized f => "unauthorized: " ++ f.message
  | insufficientFunds h a n =>
    "insufficient funds: " ++ toString h ++ " has " ++ toString a ++ ", needs " ++ toString n
  | unknownRoute r => "no such route: " ++ r
  | unknownRequest r t => "unrecognized message for route " ++ r ++ ": " ++ t
  | invalidAddress f => "invalid address: " ++ f.message
  | invalidPublicKey f => "invalid public key: " ++ f.message
  | unknownAddress a => "unknown address: " ++ toString a
  | invalidCoins f => "invalid coins: " ++ f.message
  | memoTooLarge l a =>
    "memo too large: " ++ toString a ++ " characters, limit " ++ toString l
  | insufficientFee r => "insufficient fee: " ++ r
  | tooManySignatures l a =>
    "too many signatures: " ++ toString a ++ ", limit " ++ toString l
  | invalidMessage f => "invalid message: " ++ f.message

theorem code_pos (e : TxError) : 0 < e.code := by cases e <;> simp [code]

end TxError

/-- Whether a chain has taken its genesis document. -/
inductive Phase where
  | uninitialized
  /-- A document is being loaded. -/
  | initializing
  | ready
  deriving DecidableEq, Repr

def Phase.name : Phase → String
  | uninitialized => "Uninitialized"
  | initializing => "Initializing"
  | ready => "Ready"

/-- Why a section of a well-formed genesis document is not acceptable. -/
inductive SectionFault where
  | zeroSignatureLimit
  | duplicateAccount (holder : Address)
  | zeroDifficulty
  | emptyTrend
  | chainId (error : TxError)
  | duplicateQueue (chain : String)
  | strayPacket (destination queue : String)
  | duplicateSequence (chain : String)
  | zeroPower (holder : Address)
  | duplicateBond (holder : Address)
  deriving DecidableEq

def SectionFault.message : SectionFault → String
  | zeroSignatureLimit => "tx_sig_limit must be positive"
  | duplicateAccount a => "duplicate account " ++ toString a
  | zeroDifficulty => "difficulty must be positive"
  | emptyTrend => "trend cannot be empty"
  | chainId e => e.message
  | duplicateQueue c => "duplicate egress queue for " ++ c
  | strayPacket d q => "packet for '" ++ d ++ "' queued under '" ++ q ++ "'"
  | duplicateSequence c => "duplicate ingress sequence for " ++ c
  | zeroPower a => "bond for " ++ toString a ++ " has zero power"
  | duplicateBond a => "duplicate bond for " ++ toString a

inductive GenesisError where
  | malformed (fault : Fault)
  | wrongPhase (expected actual : Phase)
  | rejected (module : String) (fault : SectionFault)
  | failed (module : String) (error : TxError)
  deriving DecidableEq

def GenesisError.message : GenesisError → String
  | malformed f => "malformed genesis document: " ++ f.message
  | wrongPhase e a => "genesis controller is " ++ a.name ++ ", expected " ++ e.name
  | rejected m f => "module " ++ m ++ " rejected its genesis state: " ++ f.message
  | failed m e => "module " ++ m ++ " failed: " ++ e.message

inductive AppError where
  | config (error : ConfigError)
  | store (error : StoreError)
  | genesis (error : GenesisError)
  | tx (error : TxError)
  deriving DecidableEq

namespace AppError

/-- Whether the node has to stop. -/
def isFatal : AppError → Bool
  | tx _ => false
  | _ => true

def message : AppError → String
  | config e => "configuration error: " ++ e.message
  | store e => "store error: " ++ e.message
  | genesis e => "genesis error: " ++ e.message
  | tx e => "transaction rejected: " ++ e.message

/-- The messages of the error and of what caused it, outermost first. -/
def chain : AppError → List String
  | config e => [message (config e), e.message]
  | store e => [message (store e), e.message]
  | genesis (.failed m e) =>
    [message (genesis (.failed m e)), GenesisError.message (.failed m e), e.message]
  | genesis e => [message (genesis e), e.message]
  | tx e => [message (tx e), e.message]

end AppError
end Appchain
