import CertsManager.World

/-!
# KeyStore — the persistent private keys

`keystore.go`.  A key is created once, by a conditional put, and read back; the staged key of a
key-replacement ceremony is created the same way and promoted over the live one.
-/

namespace CertsManager

open Interleave

def quoted (s : String) : String :=
  "\"" ++ s ++ "\""

/-- `readFailure`: every failed read but a definite "none" is marked as storage not answering. -/
def readFailure : ReadFault → Err
  | .notExist => .of .notExist
  | .failed _ reason => ⟨reason, [.storageUnavailable]⟩

def PutFault.err : PutFault → Err
  | .conditional => .new "precondition failed"
  | .failed reason => .new reason

def isLeader : M Bool :=
  onEnv .isLeader

namespace KeyStore

def objectName (cfg : Settings) : KeySlot → String
  | .live name => cfg.keyPrefix ++ "keys/" ++ name
  | .next name => cfg.keyPrefix ++ "keys/" ++ name ++ ".next"
  | .account => cfg.keyPrefix ++ "acme/account.key"

def canCreate : M Bool :=
  isLeader

def load (cfg : Settings) (ctx : Time) (slot : KeySlot) : M (Except Err Key) := do
  match ← onStorage ctx (.getKey slot) with
  | .error .notExist => return .error (readFailure .notExist)
  | .error (.failed inBody reason) =>
      let err := readFailure (.failed inBody reason)
      if inBody then
        return .error (.wrap ("read key " ++ quoted (objectName cfg slot) ++ ": ") err "")
      else
        return .error err
  | .ok data => return parseKeyPEM data

def generateSigner : KeyType → M (Except Err Key)
  | .other text => return .error (.new ("unsupported key type " ++ quoted text))
  | _ => do
      let key ← onEnv .generateSigner
      return .ok key

/-- Losing the create race reads the winner; winning it reads back what was stored. -/
def loadOrCreate (cfg : Settings) (ctx : Time) (slot : KeySlot) (keyType : KeyType) :
    M (Except Err Key) := do
  match ← load cfg ctx slot with
  | .ok signer => return .ok signer
  | .error err =>
      if !err.is .notExist then
        return .error err
      else
        let may ← canCreate
        if !may then
          return .error (.wrap ("key " ++ quoted (objectName cfg slot) ++
            " not yet created by leader: ") (.of .notExist) "")
        else
          match ← generateSigner keyType with
          | .error err => return .error err
          | .ok signer =>
              match ← onStorage ctx (.putKey slot signer true) with
              | .error .conditional => load cfg ctx slot
              | .error (.failed reason) =>
                  return .error (.wrap ("persist key " ++ quoted (objectName cfg slot) ++ ": ")
                    (PutFault.failed reason).err "")
              | .ok () =>
                  match ← load cfg ctx slot with
                  | .error err =>
                      return .error (.wrap ("read back key " ++ quoted (objectName cfg slot) ++
                        " after create: ") err "")
                  | .ok stored => return .ok stored

def loadOrCreateAccountKey (cfg : Settings) (ctx : Time) : M (Except Err Key) :=
  loadOrCreate cfg ctx .account .ecdsaP256

/-- A companion's key is RSA whatever the store's key type. -/
def certKeyType (cfg : Settings) (domain : Name) : KeyType :=
  if Layout.isCompanion domain then .rsa2048 else cfg.keyType

def loadOrCreateCertKey (cfg : Settings) (ctx : Time) (domain : Name) : M (Except Err Key) :=
  loadOrCreate cfg ctx (.live domain) (certKeyType cfg domain)

def loadCertKey (cfg : Settings) (ctx : Time) (domain : Name) : M (Except Err Key) :=
  load cfg ctx (.live domain)

def generateNextCertKey (cfg : Settings) (ctx : Time) (domain : Name) : M (Except Err Key) := do
  let may ← canCreate
  if !may then
    return .error (.of .notLeader)
  else
    loadOrCreate cfg ctx (.next domain) cfg.keyType

def loadNextCertKey (cfg : Settings) (ctx : Time) (domain : Name) : M (Except Err Key) :=
  load cfg ctx (.next domain)

/-- The removal of the staged object may fail; that is only logged. -/
def promoteNextCertKey (cfg : Settings) (ctx : Time) (domain : Name) : M (Except Err Unit) := do
  let may ← canCreate
  if !may then
    return .error (.of .notLeader)
  else
    match ← loadNextCertKey cfg ctx domain with
    | .error err => return .error (.wrap "load next key: " err "")
    | .ok next =>
        match ← onStorage ctx (.putKey (.live domain) next false) with
        | .error f => return .error (.wrap "promote next key: " f.err "")
        | .ok () =>
            let _ ← onStorage ctx (.removeKey (.next domain))
            return .ok ()

end KeyStore

end CertsManager
