import ElmInference.Ast.Fingerprint
import ElmInference.Declared.Convert

/-!
# Kept results

Results of finished declarations are kept under their file, name and signature. A declaration has at
most one entry: a new result replaces the entries of its other signatures. A change reported by the
host makes entries stale; a stale entry is still there, but no result can be got from it.
-/

namespace ElmInference

/-- Identifies a source file. -/
abbrev FileId := Nat

/-- The outcome of inferring a declaration. Neither a solved variable nor a growing record is left
in its types. -/
structure InferenceResult where
  ty : Ty
  /-- The types of expressions and patterns. -/
  nodeTypes : Assoc NodeId Ty := []
  problems : List Problem := []
deriving Inhabited

def InferenceResult.typeOf? (r : InferenceResult) (id : NodeId) : Option Ty :=
  Assoc.get? r.nodeTypes id

/-- What a result is kept under; a declaration without signature has no fingerprint. -/
structure DeclKey where
  file : FileId
  name : Name
  signature : Option UInt64
deriving DecidableEq, Inhabited

namespace DeclKey

def ofDecl (file : FileId) (decl : ValueDecl) : DeclKey :=
  ⟨file, decl.head.label, decl.signature.map TypeExpr.fingerprint⟩

def isSigned (k : DeclKey) : Bool := k.signature.isSome

/-- Whether two keys are of the same declaration, whatever their signatures. -/
def sameDecl (k other : DeclKey) : Bool := k.file == other.file && k.name == other.name

end DeclKey

inductive Change where
  /-- The body of a declaration. -/
  | value (file : FileId) (name : Name)
  /-- The signature of a declaration, also its coming and going. -/
  | signature (file : FileId) (name : Name)
  /-- A type, an alias or the fixity of an operator. -/
  | type (file : FileId)
  /-- Anything else. -/
  | file (file : FileId)
deriving DecidableEq, Inhabited

namespace Change

/-- Whether the change can alter the meaning of declared types. -/
def altersTypes : Change → Bool
  | .type _ | .file _ => true
  | .value _ _ | .signature _ _ => false

end Change

/-- A kept result, or the place of one that no longer holds. -/
inductive Entry where
  | computed (result : InferenceResult)
  | stale
deriving Inhabited

/-- Results and declared types, shared between engines. -/
structure Cache where
  entries : Assoc DeclKey Entry := []
  declared : Assoc TypeKey DeclaredType := []
  /-- How often each declaration was computed, under any signature. -/
  counts : Assoc (FileId × Name) Nat := []
deriving Inhabited

namespace Cache

def get? (c : Cache) (key : DeclKey) : Option InferenceResult :=
  match Assoc.get? c.entries key with
  | some (.computed result) => some result
  | _ => none

/-- Whether a key has an entry that no longer holds. -/
def isStale (c : Cache) (key : DeclKey) : Bool :=
  match Assoc.get? c.entries key with
  | some .stale => true
  | _ => false

/-- How many entries there are, stale or not. -/
def size (c : Cache) : Nat := c.entries.length

def isEmpty (c : Cache) : Bool := c.entries.isEmpty

/-- How often a declaration was computed. -/
def computationsOf (c : Cache) (file : FileId) (name : Name) : Nat :=
  (Assoc.get? c.counts (file, name)).getD 0

/-- Keeps a result in place of every entry of the declaration. -/
def insert (c : Cache) (key : DeclKey) (result : InferenceResult) : Cache :=
  { c with
    entries :=
      Assoc.set
        (c.entries.filter (fun e => !e.1.sameDecl key || e.1.signature == key.signature))
        key (.computed result)
    counts := Assoc.set c.counts (key.file, key.name) (c.computationsOf key.file key.name + 1) }

/-- Whether a declaration has an entry without signature. -/
def hasUnsigned (c : Cache) (file : FileId) (name : Name) : Bool :=
  c.entries.any (fun e => e.1.file == file && e.1.name == name && !e.1.isSigned)

/-- Whether a change reaches a key. The body of an unsigned declaration decides the types of every
unsigned declaration of its file; the body of a signed one concerns itself only. -/
def affects (c : Cache) : Change → DeclKey → Bool
  | .value file name, key =>
    key.file == file && (key.name == name || (c.hasUnsigned file name && !key.isSigned))
  | .signature file _, key => key.file == file
  | .type file, key => key.file == file
  | .file file, key => key.file == file

/-- Makes the entries that a change reaches stale. -/
def invalidate (c : Cache) (change : Change) : Cache :=
  { c with
    entries := c.entries.map (fun e => if c.affects change e.1 then (e.1, .stale) else e)
    declared := if change.altersTypes then [] else c.declared }

/-- How often each declaration was computed, by file and name. -/
def computations (c : Cache) : List ((FileId × Name) × Nat) :=
  c.counts.mergeSort (fun a b => a.1.1 < b.1.1 || (a.1.1 == b.1.1 && a.1.2 ≤ b.1.2))

def insertType (c : Cache) (key : TypeKey) (d : DeclaredType) : Cache :=
  { c with declared := Assoc.set c.declared key d }

def getType? (c : Cache) (key : TypeKey) : Option DeclaredType :=
  Assoc.get? c.declared key

end Cache

end ElmInference
