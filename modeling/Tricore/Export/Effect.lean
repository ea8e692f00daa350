import Tricore.Effect.Trace
import Tricore.Export.Instruction

/-!
# Effects as JSON
-/

namespace Tricore

def Width.json (w : Width) : Json := .nat w.bytes

def Label.json (l : Label) : Json := .nat l.id

namespace Expr

mutual

def json : Expr → Json
  | const w value => .tagged "Const" (.obj [("size", w.json), ("value", .word value)])
  | reg r => .tagged "Reg" r.json
  | flag f => .tagged "Flag" (.str f.tag)
  | load w addr => .tagged "Load" (.obj [("size", w.json), ("addr", json addr)])
  | unary op w arg =>
    .tagged "Unary" (.obj [("op", .str op.tag), ("size", w.json), ("arg", json arg)])
  | binary op w lhs rhs =>
    .tagged "Binary" (.obj
      [("op", .str op.tag), ("size", w.json), ("lhs", json lhs), ("rhs", json rhs)])
  | extend s w arg =>
    .tagged "Extend" (.obj
      [("signed", .bool (s = .signed)), ("size", w.json), ("arg", json arg)])
  | low w arg => .tagged "Low" (.obj [("size", w.json), ("arg", json arg)])
  | compare op w lhs rhs =>
    .tagged "Cmp" (.obj
      [("cond", .str op.tag), ("size", w.json), ("lhs", json lhs), ("rhs", json rhs)])
  | floatStatus f op args =>
    .tagged "FpStatus" (.obj
      [("flag", .str f.tag), ("op", .str op.tag), ("args", .arr (jsonList args))])

def jsonList : List Expr → List Json
  | [] => []
  | e :: es => json e :: jsonList es

end

end Expr

def Stmt.json : Stmt → Json
  | .setReg r value => .tagged "SetReg" (.obj [("reg", r.json), ("value", value.json)])
  | .setFlag f value => .tagged "SetFlag" (.obj [("flag", .str f.tag), ("value", value.json)])
  | .store w addr value =>
    .tagged "Store" (.obj [("size", w.json), ("addr", addr.json), ("value", value.json)])
  | .jump target => .tagged "Jump" target.json
  | .call target => .tagged "Call" target.json
  | .ret target => .tagged "Ret" target.json
  | .branch cond yes no =>
    .tagged "If" (.obj
      [("cond", cond.json), ("then_label", yes.json), ("else_label", no.json)])
  | .goto l => .tagged "Goto" l.json
  | .mark l => .tagged "Mark" l.json
  | .intrinsic i outputs inputs =>
    .tagged "Intrinsic" (.obj
      [("intrinsic", .str i.tag), ("outputs", .arr (outputs.map (·.json))),
        ("inputs", .arr (Expr.jsonList inputs))])
  | .nop => .str "Nop"
  | .undefined => .str "Undefined"

def Trace.json (t : Trace) : Json :=
  .obj [("stmts", .arr (t.stmts.map (·.json))), ("next_label", .nat t.nextLabel)]

end Tricore
