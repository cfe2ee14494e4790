import TLang.Registry.Members

/-! Dispatch tables and overload resolution. -/
namespace TLang.Registry

/-- The offset in bytes of the destructor in a dispatch table. -/
def destructorOffset : Nat := 4

/-- The offset in bytes of a slot in a dispatch table, behind the two reserved words. -/
def slotOffset (slot : Nat) : Nat := 4 * (slot + 2)

/-- The slot among `slots` that holds a method of the given signature. -/
def slotOf (r : Registry) (slots : List MethodId) (signature : String) : Option Nat :=
  slots.findIdx? fun m => (r.methodInfo m).signature == signature

/-- Let a method take over the slot of the one it overrides, or give it a slot of its own. -/
def override (r : Registry) (slots : List MethodId) (method : MethodId) : List MethodId :=
  match r.slotOf slots (r.methodInfo method).signature with
  | some slot => slots.set slot method
  | none => slots ++ [method]

/-- The virtual methods of a class and its ancestors, those of the root first. -/
def virtualMethods (r : Registry) (id : ClassId) : List MethodId :=
  (r.chain id).reverse.flatMap fun c =>
    (r.classInfo c).methods.filter fun m => (r.methodInfo m).isVirtual

/-- The dispatch table of a class. An override keeps the slot of the method it replaces. -/
def dispatchTable (r : Registry) (id : ClassId) : List MethodId :=
  (r.virtualMethods id).foldl r.override []

def buildVMT (r : Registry) (id : ClassId) : Registry :=
  r.updateClass id fun c => { c with vmt := r.dispatchTable id }

def vmtSlot (r : Registry) (id : ClassId) (signature : String) : Option Nat :=
  r.slotOf (r.classInfo id).vmt signature

/-- The method chosen for a call, and whether its signature matched without widening. -/
structure Resolution where
  method : MethodId
  exact : Bool
deriving DecidableEq

/-- Where a method may be declared. Constructors and destructors are not inherited. -/
def candidates (r : Registry) (id : ClassId) : MethodKind → List ClassId
  | .method => r.chain id
  | _ => [id]

/-- The method a class records under a signature, if it is of the given kind. -/
def declaredAs (r : Registry) (id : ClassId) (kind : MethodKind) (signature : String) :
    Option MethodId :=
  match (r.classInfo id).members.methods.type? signature with
  | some (.ofMethod m) => if (r.methodInfo m).kind = kind then some m else none
  | _ => none

/-- A method can take the arguments, some of them perhaps widened. -/
def accepts (r : Registry) (name : String) (kind : MethodKind) (args : List Ty)
    (method : MethodId) : Bool :=
  let m := r.methodInfo method
  m.kind = kind && m.name = name && m.params.length = args.length &&
    (args.zip m.params.types).all fun (arg, param) => r.isAssignable arg param

/-- Choose the routine for a call by the types of its arguments. A declaration with exactly this
signature in the nearest class is preferred; otherwise the first one in the nearest class that
accepts the arguments is taken. -/
def resolveMethod (r : Registry) (id : ClassId) (name : String) (kind : MethodKind)
    (args : List Ty) : Option Resolution :=
  let places := r.candidates id kind
  match places.findSome? fun c => r.declaredAs c kind (r.signature name kind args) with
  | some method => some ⟨method, true⟩
  | none =>
    (places.findSome? fun c => (r.classInfo c).methods.find? (r.accepts name kind args)).map
      fun method => ⟨method, false⟩

end TLang.Registry
