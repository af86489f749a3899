import Stylesheet.Eval
import Stylesheet.Proofs.ScopePath

/-!
Evaluation without scopes. An `Env` holds what an expression can see from its place: the arguments
of the call under way, the variables behind them, and the functions of the sheet and of the host.
Over it an expression has a value or an error and nothing else.

The evaluator of `Stylesheet.Eval` pushes and pops frames on live scopes. Seen from a live scope it
computes what the environment of that scope says, at every depth of calls, and leaves all scopes
as they were, also where it fails.
-/

namespace Stylesheet

/-- What can be seen from one place in a sheet. -/
structure Env where
  /-- The arguments of the call under way, if there is one. -/
  frame? : Option Frame
  /-- The variables behind the arguments, those of the host included. -/
  base : String → Option Value
  /-- The functions of the sheet. -/
  function? : String → Option FunctionDef
  /-- The functions of the host. -/
  hostFunction? : String → Option HostFunction

namespace Env

/-- The value of a variable: an argument of the call under way goes first. -/
def value (env : Env) (name : String) : Option Value :=
  (env.frame?.bind fun frame => frame.find? name).getD (env.base name)

def withFrame (env : Env) (frame : Frame) : Env := { env with frame? := some frame }

/-- How a call by name ends, given the place it is made from, the arguments and the line. -/
abbrev Call := Env → String → List (Option Value) → Nat → Except Error (Option Value)

/-- Replaces the last `count` values of a stack by one computed from them. -/
def reduce (stack : Stack) (count line : Nat)
    (compute : List (Option Value) → Except Error (Option Value)) : Except Error Stack :=
  if stack.length < count then .error (.argumentCount stack.length count line)
  else do
    let result ← compute (stack.take count).reverse
    return result :: stack.drop count

mutual

def term (call : Call) (env : Env) : Term → Except Error (Option Value)
  | .constant value _ => .ok (some value)
  | .reference name _ => .ok (env.value name)
  | .operator _ line => .error (.unexpected .operator line)
  | .call _ _ line => .error (.unexpected .functionCall line)
  | .group terms _ => do return Eval.bottom (← run call env [] terms)

def run (call : Call) (env : Env) : Stack → List Term → Except Error Stack
  | stack, [] => .ok stack
  | stack, .operator op line :: rest => do
    let next ← reduce stack op.arity line fun operands => op.apply operands line
    run call env next rest
  | stack, .call name argc line :: rest => do
    let next ← reduce stack argc line fun arguments => call env name arguments line
    run call env next rest
  | stack, first :: rest => do
    let value ← term call env first
    run call env (value :: stack) rest

end

def expr (call : Call) (env : Env) (e : Expr) : Except Error (Option Value) := do
  return Eval.bottom (← run call env [] e.terms)

/-- Parameters with their arguments in order. One without argument takes the value of its default,
and is absent where it has none. -/
def arguments (default : Expr → Except Error (Option Value)) :
    List Param → List (Option Value) → Except Error (List (String × Option Value))
  | [], _ => .ok []
  | param :: params, argument :: rest => do
    return (param.name, argument) :: (← arguments default params rest)
  | param :: params, [] => do
    let value ← (param.default?.map default).getD (.ok none)
    return (param.name, value) :: (← arguments default params [])

/-- A call of a sheet function. Defaults are computed where the call is made. The body sees the new
arguments in place of those of the caller and all else as the caller does. -/
def callFunction (call : Call) (env : Env) (f : FunctionDef) (given : List (Option Value)) :
    Except Error (Option Value) := do
  let bound ← arguments (expr call env) f.params given
  expr call (env.withFrame (.ofList bound)) f.body

def callHost (env : Env) (name : String) (given : List (Option Value)) (line : Nat) :
    Except Error (Option Value) :=
  match env.hostFunction? name with
  | none => .error (.functionNotFound name line)
  | some f => (f.call given).mapError fun reason => .invocation f.name line reason

/-- A call by name: of the sheet function, if there is one, else of a function of the host. -/
def dispatch (call : Env → FunctionDef → List (Option Value) → Except Error (Option Value)) :
    Call :=
  fun env name given line =>
    match env.function? name with
    | some f => call env f given
    | none => callHost env name given line

/-- A call by name, with calls of sheet functions nested up to a depth. -/
def invoke : Nat → Call
  | 0 => dispatch fun _ _ _ => .error .callDepth
  | depth + 1 => dispatch (callFunction (invoke depth))

end Env

namespace Scopes

/-- The latest frame of a scope: the arguments of the call under way in it. -/
def frame? (scopes : Scopes) (number : Nat) : Option Frame :=
  (scopes.path number).head?.bind fun entry => entry.2.frames.head?

/-- The scopes as they would be if no call were under way in the given one. -/
def withoutFrames (scopes : Scopes) (number : Nat) : Scopes :=
  scopes.modify number fun scope => { scope with frames := [] }

/-- What can be seen from a scope. Behind the arguments stand the variables seen from the scope
without its own frames; frames of its ancestors stay in sight. -/
def env (scopes : Scopes) (host : Host) (number : Nat) : Env where
  frame? := scopes.frame? number
  base := (scopes.withoutFrames number).valueOf host number
  function? := scopes.function? number
  hostFunction? := host.function?

/-- What is seen from a scope is what its environment has. -/
theorem valueOf_eq_env_value {scopes : Scopes} {number : Nat} (hlive : number < scopes.count)
    (host : Host) (name : String) :
    scopes.valueOf host number name = (scopes.env host number).value name := by
  obtain ⟨scope, older, hpath, holder⟩ := exists_path_cons hlive
  have hbase : (scopes.withoutFrames number).path number =
      (number, { scope with frames := [] }) :: older :=
    path_modify_self (by intro; rfl) hpath holder
  simp only [Env.value, env, frame?, valueOf, value?, hbase, hpath, List.head?_cons,
    List.findSome?_cons, Scope.value?, Option.bind_some]
  cases scope.frames.head?.bind fun frame => frame.find? name with
  | none => simp
  | some bound => simp

/-- A new frame takes the place of the arguments in sight and changes nothing else. -/
theorem env_pushFrame {scopes : Scopes} {number : Nat} (hlive : number < scopes.count)
    (host : Host) (frame : Frame) :
    (scopes.pushFrame number frame).env host number = (scopes.env host number).withFrame frame := by
  obtain ⟨scope, older, hpath, holder⟩ := exists_path_cons hlive
  have hpush : (scopes.pushFrame number frame).path number =
      (number, { scope with frames := frame :: scope.frames }) :: older :=
    path_modify_self (by intro; rfl) hpath holder
  have hbase : (scopes.pushFrame number frame).withoutFrames number =
      scopes.withoutFrames number :=
    modify_modify scopes number _ _
  have hfunction (name : String) :
      (scopes.pushFrame number frame).function? number name = scopes.function? number name := by
    rw [function?, hpush, function?, hpath, List.findSome?_cons, List.findSome?_cons]
  simp only [env, Env.withFrame, hbase, Env.mk.injEq, true_and, and_true]
  exact ⟨by simp [frame?, hpush], funext hfunction⟩

section Modify

variable {scopes : Scopes} {change : Scope → Scope}
  (hparent : ∀ scope, (change scope).parent = scope.parent)

include hparent

theorem frame?_modify (hframes : ∀ scope, (change scope).frames = scope.frames)
    (changed number : Nat) :
    (scopes.modify changed change).frame? number = scopes.frame? number := by
  rw [frame?, frame?, path_modify hparent, List.head?_map]
  cases (scopes.path number).head? with
  | none => rfl
  | some entry =>
      simp only [Option.map_some, Option.bind_some, changeAt]
      split
      · simp only [hframes]
      · rfl

/-- A change that has nothing to do with frames nor with the variable is not seen behind frames. -/
theorem base_modify
    (hclear : ∀ scope, { change scope with frames := [] } = change { scope with frames := [] })
    {name : String} (hvalue : ∀ scope, (change scope).value? name = scope.value? name)
    (host : Host) (changed number : Nat) :
    ((scopes.modify changed change).env host number).base name =
      (scopes.env host number).base name := by
  have hcomm : (scopes.modify changed change).withoutFrames number =
      (scopes.withoutFrames number).modify changed change :=
    @modify_comm scopes changed number change (fun scope => { scope with frames := [] }) hclear
  simp only [env, hcomm, valueOf, value?]
  rw [findSome?_path_modify hparent (fun scope => scope.value? name) hvalue]

end Modify

end Scopes

namespace Eval

/-- The computation ends with the given outcome and leaves the scopes as they are. -/
def Yields {α : Type} (act : Eval α) (scopes : Scopes) (outcome : Except Error α) : Prop :=
  act scopes = ofExcept outcome scopes

/-- Evaluations that leave the scopes alone can be chained. -/
theorem Yields.bind {α β : Type} {scopes : Scopes} {act : Eval α} {outcome : Except Error α}
    {next : α → Eval β} {rest : α → Except Error β} (hact : act.Yields scopes outcome)
    (hnext : ∀ a, (next a).Yields scopes (rest a)) :
    (act >>= next).Yields scopes (outcome >>= rest) := by
  change EStateM.bind act next scopes = _
  rw [EStateM.bind, hact]
  cases outcome with
  | error error => rfl
  | ok a => exact hnext a

theorem Yields.map {α β : Type} {scopes : Scopes} {act : Eval α} {outcome : Except Error α}
    (f : α → β) (hact : act.Yields scopes outcome) :
    (do return f (← act)).Yields scopes (do return f (← outcome)) :=
  hact.bind fun _ => rfl

/-- An act on the top of the stack yields what it computes from the values there. -/
theorem onTop_yields {scopes : Scopes} {act : List (Option Value) → Eval (Option Value)}
    {compute : List (Option Value) → Except Error (Option Value)}
    (h : ∀ values, (act values).Yields scopes (compute values)) (stack : Stack)
    (count line : Nat) :
    (onTop stack count line act).Yields scopes (Env.reduce stack count line compute) := by
  unfold onTop Env.reduce
  split
  · rfl
  · exact (h _).map _

section Terms

variable {host : Host} {invoke : Invoke} {call : Env.Call} {scope : Nat} {scopes : Scopes}
  {env : Env}

mutual

/-- A term yields its value in the environment, given that calls do. -/
theorem term_yields (hvalue : ∀ name, scopes.valueOf host scope name = env.value name)
    (hcall : ∀ name given line, (invoke name given line).Yields scopes (call env name given line)) :
    ∀ t : Term, (term host invoke scope t).Yields scopes (Env.term call env t)
  | .constant _ _ => rfl
  | .reference name _ => by
      simp only [Yields, term, Env.term, lookup, ofExcept, hvalue name]
      rfl
  | .operator _ _ => rfl
  | .call _ _ _ => rfl
  | .group terms _ => by
      rw [term, Env.term]
      exact (run_yields hvalue hcall [] terms).map _

/-- Terms in a row yield the stack that the environment computes. -/
theorem run_yields (hvalue : ∀ name, scopes.valueOf host scope name = env.value name)
    (hcall : ∀ name given line, (invoke name given line).Yields scopes (call env name given line)) :
    ∀ (stack : Stack) (terms : List Term),
      (run host invoke scope stack terms).Yields scopes (Env.run call env stack terms)
  | _, [] => rfl
  | stack, first :: rest => by
      have hfirst := term_yields hvalue hcall first
      have hrest := fun next => run_yields hvalue hcall next rest
      cases first with
      | operator op line =>
          rw [run, Env.run]
          exact (onTop_yields (fun _ => rfl) stack op.arity line).bind hrest
      | call name argc line =>
          rw [run, Env.run]
          exact (onTop_yields (fun given => hcall name given line) stack argc line).bind hrest
      | _ =>
          rw [run, Env.run]
          · exact hfirst.bind fun value => hrest (value :: stack)
          all_goals simp

end

theorem expr_yields (hvalue : ∀ name, scopes.valueOf host scope name = env.value name)
    (hcall : ∀ name given line, (invoke name given line).Yields scopes (call env name given line))
    (e : Expr) : (expr host invoke scope e).Yields scopes (Env.expr call env e) :=
  (run_yields hvalue hcall [] e.terms).map _

end Terms

theorem missing_yields {scopes : Scopes} {default : Expr → Eval (Option Value)}
    {value : Expr → Except Error (Option Value)}
    (h : ∀ e, (default e).Yields scopes (value e)) (param : Param) :
    (missing default param).Yields scopes ((param.default?.map value).getD (.ok none)) := by
  unfold missing
  cases param.default? with
  | none => rfl
  | some e => exact h e

/-- Arguments are bound in order, the defaults being yielded where they are missing. -/
theorem bindParams_yields {scopes : Scopes} {default : Expr → Eval (Option Value)}
    {value : Expr → Except Error (Option Value)}
    (h : ∀ e, (default e).Yields scopes (value e)) (params : List Param)
    (given : List (Option Value)) (frame : Frame) :
    (bindParams default frame params given).Yields scopes (do
      let bound ← Env.arguments value params given
      return bound.foldl (fun frame (name, a) => frame.insert name a) frame) := by
  induction params generalizing given frame with
  | nil => rfl
  | cons param params ih =>
      cases given with
      | cons argument given =>
          have hrest := ih given (frame.insert param.name argument)
          rw [bindParams, Env.arguments]
          simpa using hrest
      | nil =>
          have hrest := (missing_yields h param).bind fun a => ih [] (frame.insert param.name a)
          rw [bindParams, Env.arguments]
          simpa using hrest

/-- A computation under a further frame yields what it yields with the frame in place: the frame
is gone afterwards, whether it succeeded or failed. -/
theorem withFrame_yields {α : Type} {scopes : Scopes} {scope : Nat} {frame : Frame}
    {act : Eval α} {outcome : Except Error α}
    (h : act.Yields (scopes.pushFrame scope frame) outcome) :
    (withFrame scope frame act).Yields scopes outcome := by
  unfold Yields withFrame
  rw [h]
  cases outcome with
  | error error => simp [ofExcept, fail]
  | ok a =>
      change EStateM.Result.ok a ((scopes.pushFrame scope frame).popFrame scope) = _
      rw [Scopes.popFrame_pushFrame]
      rfl

/-- A call of the host does not look at the scopes. -/
theorem callHost_yields (host : Host) (scopes : Scopes) (number : Nat) (name : String)
    (given : List (Option Value)) (line : Nat) :
    (callHost host name given line).Yields scopes
      ((scopes.env host number).callHost name given line) := by
  unfold callHost Env.callHost
  change Yields _ _ (match host.function? name with
    | none => _
    | some f => _)
  cases host.function? name with
  | none => rfl
  | some f =>
      dsimp only
      cases f.call given with
      | ok value => rfl
      | error reason => rfl

/-- A call of a sheet function from a live scope, if the calls made on its way follow the
environment whatever frames are on the scopes. -/
theorem callFunction_yields {host : Host} {invoke : Invoke} {call : Env.Call} {scope : Nat}
    (hcall : ∀ scopes : Scopes, scope < scopes.count → ∀ name given line,
      (invoke name given line).Yields scopes (call (scopes.env host scope) name given line))
    {scopes : Scopes} (hlive : scope < scopes.count) (f : FunctionDef)
    (given : List (Option Value)) :
    (callFunction host invoke scope f given).Yields scopes
      (Env.callFunction call (scopes.env host scope) f given) := by
  have hexpr {at_ : Scopes} (hat : scope < at_.count) (e : Expr) :
      (expr host invoke scope e).Yields at_ (Env.expr call (at_.env host scope) e) :=
    expr_yields (Scopes.valueOf_eq_env_value hat host) (hcall at_ hat) e
  have hparams := bindParams_yields (hexpr hlive) f.params given .empty
  have hbody (frame : Frame) :
      (withFrame scope frame (expr host invoke scope f.body)).Yields scopes
        (Env.expr call ((scopes.env host scope).withFrame frame) f.body) := by
    apply withFrame_yields
    rw [← Scopes.env_pushFrame hlive]
    exact hexpr (by simpa [Scopes.pushFrame] using hlive) f.body
  have hboth := hparams.bind hbody
  simpa [callFunction, Env.callFunction, Bindings.ofList] using hboth

/-- A call by name finds the same function in the scopes and in the environment. -/
theorem dispatch_yields {host : Host} {scopes : Scopes} {scope : Nat}
    {call : FunctionDef → List (Option Value) → Eval (Option Value)}
    {outcome : Env → FunctionDef → List (Option Value) → Except Error (Option Value)}
    {given : List (Option Value)}
    (hcall : ∀ f, (call f given).Yields scopes (outcome (scopes.env host scope) f given))
    (name : String) (line : Nat) :
    (dispatch host scope call name given line).Yields scopes
      (Env.dispatch outcome (scopes.env host scope) name given line) := by
  simp only [Yields, dispatch, Env.dispatch]
  change _ = ofExcept (match scopes.function? scope name with
    | some f => _
    | none => _) scopes
  cases scopes.function? scope name with
  | none => exact callHost_yields host scopes scope name given line
  | some f => exact hcall f

/-- Calls by name follow the environment of the scope they are made from. The induction is on the
depth: a body runs one level deeper, on the scopes with the new frame. -/
theorem invoke_yields (host : Host) {scopes : Scopes} {scope : Nat} (hlive : scope < scopes.count)
    (depth : Nat) (name : String) (given : List (Option Value)) (line : Nat) :
    (invoke host scope depth name given line).Yields scopes
      (Env.invoke depth (scopes.env host scope) name given line) := by
  induction depth generalizing scopes name given line with
  | zero =>
      apply dispatch_yields
      intro f
      rfl
  | succ depth ih =>
      apply dispatch_yields
      intro f
      exact callFunction_yields (fun _ hat => ih hat) hlive f given

end Eval

/-- Evaluation in a scope is evaluation in an environment. From every live scope, whatever frames
are on whichever scopes, and for every depth of calls: an expression, a single term and a call by
name end with the value or the error that the environment of the scope gives them, and the scopes
afterwards are the scopes before. -/
theorem evaluation_yields_environment (host : Host) (scopes : Scopes) (scope depth : Nat)
    (hlive : scope < scopes.count) :
    (∀ e : Expr, (Eval.expr host (Eval.invoke host scope depth) scope e).Yields scopes
      (Env.expr (Env.invoke depth) (scopes.env host scope) e)) ∧
    (∀ t : Term, (Eval.term host (Eval.invoke host scope depth) scope t).Yields scopes
      (Env.term (Env.invoke depth) (scopes.env host scope) t)) ∧
    (∀ name given line, (Eval.invoke host scope depth name given line).Yields scopes
      (Env.invoke depth (scopes.env host scope) name given line)) := by
  have hvalue := Scopes.valueOf_eq_env_value hlive host
  have hcall := Eval.invoke_yields host hlive depth
  exact ⟨Eval.expr_yields hvalue hcall, Eval.term_yields hvalue hcall, hcall⟩

/-- A scope in the middle of a call that has `c` as its argument. The function `f` of its parent
takes `a` and `b`, where `b` defaults to the caller's `c`. -/
def scopesInCall : Scopes :=
  let parameters : List Param := [⟨"a", none⟩, ⟨"b", some ⟨[.reference "c" 1], 1⟩⟩]
  let body : Expr := ⟨[.reference "b" 1, .reference "c" 1, .operator .ne 1], 1⟩
  ⟨[{ parent := some 0, frames := [.ofList [("c", some (.bool true))]] },
    { functions := .ofList [("f", ⟨"f", parameters, body, 1⟩)] }]⟩

/-- The default sees the `c` of the caller and the body does not: `b` differs from the `c` that the
body finds. The frame of the caller is back in its place after the call. -/
theorem evaluation_yields_environment_in_call :
    1 < scopesInCall.count ∧
      Eval.invoke .nothing 1 1 "f" [none] 2 scopesInCall =
        .ok (some (.bool true)) scopesInCall := by
  have hlive : 1 < scopesInCall.count := by decide
  have hcall := (evaluation_yields_environment .nothing scopesInCall 1 1 hlive).2.2 "f" [none] 2
  exact ⟨hlive, hcall.trans rfl⟩

end Stylesheet
