/-
The symbols that exist, by context and name: `lookupSymbol` and
`translateCreateSymbol` of nl-symbol.c.  Names are kept with one character for
each byte.
-/
import NewLispNeo.Token
import NewLispNeo.Interp

namespace NewLispNeo

/-- The bytes of a name. -/
def nameBytes (name : String) : List UInt8 :=
  name.toList.map fun c => UInt8.ofNat c.toNat

/-- The name with these bytes. -/
def bytesName (bytes : List UInt8) : String :=
  String.ofList (bytes.map fun b => Char.ofNat b.toNat)

def symbolGlobal : Nat := 0x20
def printTypeMask : Nat := 0x0f

/-- The flags of a symbol, and whether it is a context: its contents is a context
cell that points back to it. -/
structure SymbolInfo where
  flags : Nat
  isContext : Bool
deriving DecidableEq

def SymbolInfo.isGlobal (info : SymbolInfo) : Bool :=
  info.flags &&& symbolGlobal ≠ 0

/-- The symbols of all contexts, and `currentContext`. -/
structure SymbolTable where
  find : Symbol → Option SymbolInfo
  currentContext : String

namespace SymbolTable

def mainContext : String := "MAIN"

variable (T : SymbolTable)

/-- `lookupSymbol(token, context) != NULL`. -/
def has (s : Symbol) : Bool := (T.find s).isSome

def isGlobal (s : Symbol) : Bool := ((T.find s).map (·.isGlobal)).getD false

def isContext (s : Symbol) : Bool := ((T.find s).map (·.isContext)).getD false

def flags (s : Symbol) : Nat := ((T.find s).map (·.flags)).getD 0

def insert (s : Symbol) (info : SymbolInfo) : SymbolTable :=
  { T with find := fun t => if t = s then some info else T.find t }

/-- `flags |= SYMBOL_GLOBAL`. -/
def setGlobal (s : Symbol) : SymbolTable :=
  { T with find := fun t =>
      if t = s then
        (T.find s).map fun info => { info with flags := info.flags ||| symbolGlobal }
      else T.find t }

/-- `translateCreateSymbol`: the symbol of the context, or one that is inherited
from `MAIN`, or a new one. -/
def translateCreateSymbol (token : String) (asContext : Bool) (context : String)
    (forceFlag : Bool) : Symbol × SymbolTable :=
  let own : Symbol := ⟨context, token⟩
  let inherited : Symbol := ⟨mainContext, token⟩
  if T.has own then (own, T)
  else if forceFlag = false ∧ context ≠ mainContext ∧
      (T.isGlobal inherited ∨ T.isContext inherited) then (inherited, T)
  else if asContext ∧ context = mainContext then
    (own, T.insert own ⟨symbolProtected ||| symbolGlobal, true⟩)
  else (own, T.insert own ⟨0, false⟩)

/-- What holds of the table of an interpreter: contexts and global symbols are in
`MAIN`, every symbol is in a context, so is what is read, and `nil` and `true` are
there. -/
structure WellFormed : Prop where
  context_main : ∀ s, T.isContext s = true → s.context = mainContext
  global_main : ∀ s, T.isGlobal s = true → s.context = mainContext
  in_context : ∀ s, T.has s = true → T.isContext ⟨mainContext, s.context⟩ = true
  current : T.isContext ⟨mainContext, T.currentContext⟩ = true
  nil : T.isGlobal nilSymbol = true
  true_ : T.isGlobal trueSymbol = true

end SymbolTable

@[simp] theorem nameBytes_bytesName (bytes : List UInt8) :
    nameBytes (bytesName bytes) = bytes := by
  have hbyte : ∀ b : UInt8, UInt8.ofNat (Char.ofNat b.toNat).toNat = b := by
    intro b
    have hlt : b.toNat < 256 := b.toNat_lt
    have hvalid : b.toNat.isValidChar := .inl (by omega)
    have hnat : (Char.ofNat b.toNat).toNat = b.toNat := by
      rw [Char.ofNat, dif_pos hvalid]
      rfl
    rw [hnat]
    exact UInt8.ofNat_toNat
  simp [nameBytes, bytesName, Function.comp_def, hbyte]

end NewLispNeo
