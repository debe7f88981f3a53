import CertsManager.Clock
import CertsManager.Paths
import CertsManager.Interleave.Pool

/-!
# Inventory — the operator's view of the stored certificates

`certstore/inventory.go` and the deleting commands of `certstore/command.go`.  Every storage call
is one call of a `Prog`, so each can fail by itself; `now`, the prompt and what is printed are calls
too.  An object's bytes are given by what the two decoders make of them, and of the first MiB of
them, which is all that `read` takes; the nodes read the whole object.  Flags reach the commands
parsed; the suggestion for a mistyped name and the summary line `tls delete` prints before it asks
are left out.
-/

namespace CertsManager
namespace Certstore

open Interleave Layout

/-! ## Stored objects -/

inductive Role where
  | configured
  | onDemand
  | orphan
  deriving DecidableEq, Repr

def Role.text : Role → String
  | .configured => "configured"
  | .onDemand => "on-demand"
  | .orphan => "orphan"

/-- What is read of a leaf certificate. -/
structure Leaf where
  algorithm : String
  dnsNames : List String
  issuer : String
  notBefore : Time
  notAfter : Time
  deriving DecidableEq, Repr

/-- One PEM block; a certificate with what `x509.ParseCertificate` makes of its bytes. -/
inductive Block where
  | certificate (leaf : Except String Leaf)
  | other (type : String)

structure OnDemandState where
  generatedAt : Nat
  hosts : List String

/-- The bytes of an object, as PEM and as the JSON of the allow-set. -/
structure Data where
  pem : List Block
  json : Except String OnDemandState

structure ObjectInfo where
  key : String
  size : Nat
  lastModified : Time

/-- The limit of `read`. -/
def readLimit : Nat := 2 ^ 20

/-- An object, with what its first `readLimit` bytes decode to.  A JSON text that still is one when
it is cut short has lost blanks only. -/
structure Object where
  data : Data
  head : Data
  size : Nat
  lastModified : Time
  whole : size ≤ readLimit → head = data
  json : ∀ s s', head.json = .ok s → data.json = .ok s' → s = s'

/-- An error of the storage backend; only `os.ErrNotExist` is told apart. -/
inductive Fault where
  | notExist
  | failed (text : String)
  deriving DecidableEq, Repr

def Fault.text : Fault → String
  | .notExist => "file does not exist"
  | .failed text => text

/-! ## Calls -/

inductive Stream where
  | out
  | err
  deriving DecidableEq, Repr

inductive Op where
  | stat (key : String)
  | list (dir : String)
  | get (key : String)
  | remove (key : String)
  | now
  | confirm (question : String)
  | print (stream : Stream) (text : String)
  deriving DecidableEq, Repr

@[reducible] def Res : Op → Type
  | .stat _ => Except Fault ObjectInfo
  | .list _ => Except Fault (List ObjectInfo)
  | .get _ => Except Fault Data
  | .remove _ => Except Fault Unit
  | .now => Time
  | .confirm _ => Bool
  | .print _ _ => Unit

abbrev Program (α : Type) : Type := Prog Op Res α

abbrev History : Type := Hist Op Res

def stat (key : String) : Program (Except Fault ObjectInfo) := Prog.perform (Op.stat key)
def listObjects (dir : String) : Program (Except Fault (List ObjectInfo)) := Prog.perform (Op.list dir)
/-- `Inventory.read`: at most `readLimit` bytes. -/
def readObject (key : String) : Program (Except Fault Data) := Prog.perform (Op.get key)
def removeObject (key : String) : Program (Except Fault Unit) := Prog.perform (Op.remove key)
def now : Program Time := Prog.perform Op.now
def confirm (question : String) : Program Bool := Prog.perform (Op.confirm question)
def print (stream : Stream) (text : String) : Program Unit := Prog.perform (Op.print stream text)

/-! ## `inventory.go` -/

structure Certificate where
  domain : String
  key : String
  size : Nat := 0
  lastModified : Time := 0
  role : Role := .orphan
  algorithm : String := ""
  names : List String := []
  issuer : String := ""
  notBefore : Time := 0
  notAfter : Time := 0
  expired : Bool := false
  invalid : String := ""
  hasKey : Bool := false
  hasStagedKey : Bool := false

/-- Why no node can serve the chain, `""` when one can. -/
def Certificate.unservable (c : Certificate) : String :=
  if c.invalid ≠ "" then "invalid (" ++ c.invalid ++ ")"
  else if c.expired then "expired"
  else ""

def Certificate.inUse (c : Certificate) : Bool :=
  decide (c.unservable = "") && decide (c.role ≠ .orphan)

inductive Err where
  | notStored (domain : String)
  | inUse (c : Certificate)
  | storage (fault : Fault)
  | listing (dir : String) (fault : Fault)
  | allowSet (text : String)
  | removing (key : String) (fault : Fault)

def Err.text : Err → String
  | .notStored _ => "no certificate in storage for that name"
  | .inUse _ => "the certificate is valid and in use"
  | .storage fault => fault.text
  | .listing dir fault => "listing " ++ dir ++ ": " ++ fault.text
  | .allowSet text => "reading the on-demand allow-set: " ++ text
  | .removing key fault => "removing " ++ key ++ ": " ++ fault.text

def normalize (u : Unicode) (domain : String) : String :=
  trimSuffix (u.lower (u.trimSpace domain)) "."

structure Inventory where
  u : Unicode
  base : String
  configured : List String

/-- `New`. -/
def Inventory.new (u : Unicode) (base : String) (domains : List String) : Inventory where
  u := u
  base := base
  configured := (domains.map (normalize u)).filter (· ≠ "")

namespace Inventory

variable (inv : Inventory)

/-- The role `describe` gives a name. -/
def role (onDemand : List String) (domain : String) : Role :=
  if certDomain domain ∈ inv.configured then .configured
  else if domain ∈ onDemand then .onDemand
  else .orphan

/-- The first certificate block is the leaf. -/
def parse : List Block → Certificate → Program Certificate
  | [], c => pure { c with invalid := "no certificate in the PEM" }
  | .other _ :: rest, c => parse rest c
  | .certificate (.error err) :: _, c => pure { c with invalid := "does not parse: " ++ err }
  | .certificate (.ok leaf) :: _, c => do
      let t ← now
      pure { c with
        algorithm := leaf.algorithm
        names := leaf.dnsNames
        issuer := leaf.issuer
        notBefore := leaf.notBefore
        notAfter := leaf.notAfter
        expired := decide (leaf.notAfter < t) }

def describe (c : Certificate) (keys onDemand : List String) : Program Certificate := do
  let c := { c with
    role := inv.role onDemand c.domain
    hasKey := decide (c.domain ∈ keys)
    hasStagedKey := decide (c.domain ++ Paths.nextKeySuffix ∈ keys) }
  match ← readObject c.key with
  | .error fault => pure { c with invalid := "unreadable: " ++ fault.text }
  | .ok data => parse data.pem c

/-- `strings.TrimPrefix`. -/
def trimPrefix (s start : String) : String :=
  if start.toList <+: s.toList then String.ofList (s.toList.drop start.toList.length) else s

def keyNames : Program (Except Err (List String)) := do
  let dir := inv.base ++ Paths.keyDir
  match ← listObjects dir with
  | .error fault => pure (.error (.listing dir fault))
  | .ok objects => pure (.ok (objects.map fun o => trimPrefix o.key dir))

def onDemandKey : String :=
  inv.base ++ Paths.onDemandHosts

/-- The names of the published allow-set: none when there is no object, an error when it cannot be
read. -/
def onDemandOf : Except Fault Data → Except Err (List String)
  | .error .notExist => .ok []
  | .error (.failed text) => .error (.allowSet text)
  | .ok data =>
      match data.json with
      | .error text => .error (.allowSet text)
      | .ok state => .ok (state.hosts.map (normalize inv.u))

def onDemand : Program (Except Err (List String)) := do
  return inv.onDemandOf (← readObject inv.onDemandKey)

def describeAll (dir : String) (keys onDemand : List String) :
    List ObjectInfo → Program (List Certificate)
  | [] => pure []
  | o :: objects => do
      let domain := trimPrefix o.key dir
      -- not a chain the manager wrote
      if domain = "" ∨ '/' ∈ domain.toList then
        describeAll dir keys onDemand objects
      else
        let c ← inv.describe
          { domain, key := o.key, size := o.size, lastModified := o.lastModified } keys onDemand
        return c :: (← describeAll dir keys onDemand objects)

/-- Every certificate in storage, sorted by name. -/
def list : Program (Except Err (List Certificate)) := do
  let dir := inv.base ++ Paths.chainDir
  match ← listObjects dir with
  | .error fault => pure (.error (.listing dir fault))
  | .ok objects =>
      match ← inv.keyNames with
      | .error err => pure (.error err)
      | .ok keys =>
          match ← inv.onDemand with
          | .error err => pure (.error err)
          | .ok onDemand =>
              let out ← inv.describeAll dir keys onDemand objects
              pure (.ok (out.insertionSort fun a b => a.domain ≤ b.domain))

def get (domain : String) : Program (Except Err Certificate) := do
  let domain := normalize inv.u domain
  let key := Paths.chain inv.u inv.base domain
  match ← stat key with
  | .error .notExist => pure (.error (.notStored domain))
  | .error fault => pure (.error (.storage fault))
  | .ok info =>
      match ← inv.keyNames with
      | .error err => pure (.error err)
      | .ok keys =>
          match ← inv.onDemand with
          | .error err => pure (.error err)
          | .ok onDemand =>
              let c ← inv.describe
                { domain, key, size := info.size, lastModified := info.lastModified } keys onDemand
              pure (.ok c)

/-- Removes one name's chain and returns what it removed. -/
def delete (domain : String) (force : Bool) : Program (Except Err Certificate) := do
  match ← inv.get domain with
  | .error err => pure (.error err)
  | .ok c =>
      if c.inUse && !force then
        pure (.error (.inUse c))
      else
        match ← removeObject c.key with
        | .error fault => pure (.error (.removing c.key fault))
        | .ok () => pure (.ok c)

end Inventory

/-! ## `command.go` -/

def exitOK : Nat := 0
def exitFailed : Nat := 1
def exitUsage : Nat := 2
def exitNotFound : Nat := 3

structure Env where
  program : String
  interactive : Bool

structure DeleteArgs where
  domain : String
  yes : Bool
  force : Bool

structure CleanArgs where
  yes : Bool
  dry : Bool

section

variable (env : Env) (inv : Inventory)

def refuseInUse (c : Certificate) : Program Unit :=
  print .err ("\n✗ Not deleting " ++ c.domain ++ ": it is valid and in use (" ++ c.role.text ++ ").\n" ++
    "  Deleting would not replace it. The leader serves it from memory and writes\n" ++
    "  it back to storage on its next maintenance pass.\n" ++
    "  To replace it:    " ++ env.program ++ " renew-cert " ++ c.domain ++ "\n" ++
    "  To delete anyway: add --force (see '" ++ env.program ++ " tls help' for when that helps)\n")

/-- The end of `runDelete`, once the operator has agreed. -/
def removeAgreed (domain : String) (force : Bool) : Program Nat := do
  match ← inv.delete domain force with
  | .error (.inUse removed) => do
      refuseInUse env removed
      pure exitFailed
  | .error err => do
      print .err ("Error: " ++ err.text ++ "\n")
      pure exitFailed
  | .ok removed => do
      print .out ("✓ Deleted " ++ removed.key ++
        ". Its key stays, so a certificate issued later keeps the same SPKI.\n")
      if removed.inUse then
        print .out ("⚠ It was in use. A running leader writes its copy back on its next maintenance " ++
          "pass.\n  To replace it instead: " ++ env.program ++ " renew-cert " ++ removed.domain ++ "\n")
      pure exitOK

def runDelete (args : DeleteArgs) : Program Nat := do
  match ← inv.get args.domain with
  | .error (.notStored domain) => do
      print .err ("No certificate for \"" ++ domain ++ "\" in storage.\n")
      let _ ← inv.list
      print .err ("  See: " ++ env.program ++ " tls list\n")
      pure exitNotFound
  | .error err => do
      print .err ("Error: " ++ err.text ++ "\n")
      pure exitFailed
  | .ok c =>
      if c.inUse && !args.force then do
        refuseInUse env c
        pure exitFailed
      else if args.yes then removeAgreed env inv c.domain args.force
      else if !env.interactive then do
        print .err "Refusing to delete without confirmation: not a terminal. Pass --yes.\n"
        pure exitUsage
      else if ← confirm ("Delete the certificate for " ++ c.domain ++ " from shared storage?") then
        removeAgreed env inv c.domain args.force
      else do
        print .out "Nothing done.\n"
        pure exitOK

/-- What the loop of `runClean` counts. -/
structure Tally where
  deleted : Nat := 0
  failed : Nat := 0
  unserved : List String := []

/-- Never forced: `delete` reads again. -/
def cleanEach (inv : Inventory) : List Certificate → Tally → Program Tally
  | [], tally => pure tally
  | c :: doomed, tally => do
      match ← inv.delete c.domain false with
      | .error (.inUse _) => do
          print .out ("  kept " ++ c.domain ++ ": renewed since it was listed\n")
          cleanEach inv doomed tally
      | .error (.notStored _) => cleanEach inv doomed tally
      | .error err => do
          print .err ("✗ " ++ c.domain ++ ": " ++ err.text ++ "\n")
          cleanEach inv doomed { tally with failed := tally.failed + 1 }
      | .ok removed =>
          cleanEach inv doomed { tally with
            deleted := tally.deleted + 1
            unserved :=
              if removed.role = .configured then tally.unserved ++ [removed.domain]
              else tally.unserved }

def printEach (line : String → String) : List String → Program Unit
  | [] => pure ()
  | d :: ds => do
      print .out (line d)
      printEach line ds

def plural (n : Nat) (noun : String) : String :=
  if n = 1 then "1 " ++ noun else toString n ++ " " ++ noun ++ "s"

/-- The end of `runClean`, once the operator has agreed. -/
def cleanAgreed (doomed : List Certificate) : Program Nat := do
  let tally ← cleanEach inv doomed {}
  print .out ("✓ Deleted " ++ toString tally.deleted ++ " of " ++ toString doomed.length ++
    ". Keys were kept.\n")
  printEach (fun d => "⚠ " ++ d ++ " is configured and has no usable certificate: " ++ env.program ++
    " renew-cert " ++ d ++ "\n") tally.unserved
  pure (if 0 < tally.failed then exitFailed else exitOK)

def runClean (args : CleanArgs) : Program Nat := do
  match ← inv.list with
  | .error err => do
      print .err ("Error: " ++ err.text ++ "\n")
      pure exitFailed
  | .ok all => do
      let doomed := all.filter fun c => c.unservable ≠ ""
      if doomed.length = 0 then do
        print .out ("Nothing to clean: every certificate in storage (" ++ toString all.length ++
          ") can be served.\n")
        pure exitOK
      else do
        printEach id ("DOMAIN\tROLE\tWHY\n" ::
          doomed.map fun c => c.domain ++ "\t" ++ c.role.text ++ "\t" ++ c.unservable ++ "\n")
        if args.dry then do
          print .out ("\nDry run: would delete " ++ plural doomed.length "certificate" ++ ".\n")
          pure exitOK
        else if args.yes then cleanAgreed env inv doomed
        else if !env.interactive then do
          print .err "\nRefusing to delete without confirmation: not a terminal. Pass --yes.\n"
          pure exitUsage
        else if ← confirm ("\nDelete these " ++ toString doomed.length ++ " from shared storage?") then
          cleanAgreed env inv doomed
        else do
          print .out "Nothing done.\n"
          pure exitOK

end

/-! ## Storage -/

structure World where
  object : String → Option Object
  keys : List String
  now : Time

/-- How one call goes: an error of the backend, whether a removal that reports one was made all the
same, what the clock advances by, the operator's reply. -/
structure Answer where
  fail : Option String := none
  took : Bool := false
  tick : Time := 0
  agrees : Bool := true

def World.without (w : World) (key : String) : World :=
  { w with object := fun k => if k = key then none else w.object k }

def World.info (w : World) (key : String) : Option ObjectInfo :=
  (w.object key).map fun o => { key, size := o.size, lastModified := o.lastModified }

def exec (w : World) : (o : Op) → Answer → Option (Res o × World)
  | .stat key, a =>
      match a.fail, w.info key with
      | some text, _ => some (.error (.failed text), w)
      | none, none => some (.error .notExist, w)
      | none, some info => some (.ok info, w)
  | .list dir, a =>
      match a.fail with
      | some text => some (.error (.failed text), w)
      | none =>
          let keys := w.keys.filter fun key => decide (dir.toList <+: key.toList)
          some (.ok (keys.filterMap w.info), w)
  | .get key, a =>
      match a.fail, w.object key with
      | some text, _ => some (.error (.failed text), w)
      | none, none => some (.error .notExist, w)
      | none, some o => some (.ok o.head, w)
  | .remove key, a =>
      match a.fail with
      | some text => some (.error (.failed text), if a.took then w.without key else w)
      | none => some (.ok (), w.without key)
  | .now, a => some (w.now + a.tick, { w with now := w.now + a.tick })
  | .confirm _, a => some (a.agrees, w)
  | .print _ _, _ => some ((), w)

inductive Call where
  | delete (domain : String) (force : Bool)
  | tlsDelete (env : Env) (args : DeleteArgs)
  | tlsClean (env : Env) (args : CleanArgs)

def Call.force : Call → Bool
  | .delete _ force => force
  | .tlsDelete _ args => args.force
  | .tlsClean _ _ => false

def body (inv : Inventory) : Call → Program Unit
  | .delete domain force => (fun _ => ()) <$> inv.delete domain force
  | .tlsDelete env args => (fun _ => ()) <$> runDelete env inv args
  | .tlsClean env args => (fun _ => ()) <$> runClean env inv args

/-- Any number of operators over one storage. -/
def operators (T : Type) (inv : Inventory) : Machine Op Res World T Call Unit Answer where
  exec w _ o a := exec w o a
  body := body inv

abbrev OperatorsView (T : Type) : Type := View Op Res World T Call
abbrev OperatorsLabel (T : Type) : Type := Label Op Res T Call Unit

end Certstore
end CertsManager
