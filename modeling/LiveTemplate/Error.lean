import LiveTemplate.Document.Slots
import LiveTemplate.Expr.Parser
import LiveTemplate.Markup.Reader
import LiveTemplate.Template.Anchor

/-!
# LiveTemplate.Error

What can go wrong: while a template is compiled, and while it runs.
-/

namespace LiveTemplate

/-- The two ways to open an expression span. -/
inductive SpanMark where
  | dollar
  | braces
  deriving DecidableEq, Repr

namespace SpanMark

def opening : SpanMark → String
  | .dollar => "$\x7b"
  | .braces => "\x7b\x7b"

def closing : SpanMark → String
  | .dollar => "\x7d"
  | .braces => "\x7d\x7d"

end SpanMark

/-- What is wrong with the value of an event attribute. -/
inductive HandlerFault where
  | surroundingText
  | severalExpressions
  | argumentsOutsideSpan
  | unbalancedParentheses
  | trailingText
  | missingName
  deriving DecidableEq, Repr

def HandlerFault.message : HandlerFault → String
  | .surroundingText => "literal text around the handler expression"
  | .severalExpressions => "more than one expression"
  | .argumentsOutsideSpan => "arguments need a `$\x7b...\x7d` expression"
  | .unbalancedParentheses => "unbalanced parentheses"
  | .trailingText => "unexpected text after the argument list"
  | .missingName => "expected a handler name"

def invalidExpressionMessage (source : String) (offset : Nat) : String :=
  s!"invalid expression {Text.quote source} at offset {offset}"

/-- What is wrong with the value of a directive. -/
inductive DirectiveFault where
  | missingExpression
  | invalidParameter (parameter : String)
  | invalidExpression (source : String) (offset : Nat)
  deriving DecidableEq, Repr

def DirectiveFault.message : DirectiveFault → String
  | .missingExpression => "expected an expression"
  | .invalidParameter parameter => s!"invalid parameter `{parameter}`"
  | .invalidExpression source offset => invalidExpressionMessage source offset

inductive CompileError where
  | markup (error : MarkupError)
  | unterminatedExpression (mark : SpanMark) (text : String)
  | emptyExpression (text : String)
  | invalidExpression (source : String) (offset : Nat)
  | invalidEventHandler (event value : String) (fault : HandlerFault)
  | unknownDirective (name : String)
  | unknownComponent (tag : String)
  | unsupportedOnComponent (tag name : String)
  | duplicateBinding (anchor : Anchor)
  | extensionAtRoot (name : String)
  | invalidDirective (directive value : String) (fault : DirectiveFault)
  deriving DecidableEq, Repr

def CompileError.message : CompileError → String
  | .markup error => error.message
  | .unterminatedExpression mark text => s!"unterminated `{mark.opening}` in {Text.quote text}"
  | .emptyExpression text => s!"empty expression in {Text.quote text}"
  | .invalidExpression source offset => invalidExpressionMessage source offset
  | .invalidEventHandler event value fault =>
    s!"invalid handler for `on{event}` ({Text.quote value}): {fault.message}"
  | .unknownDirective name => s!"unknown directive `v-{name}`"
  | .unknownComponent tag => s!"unknown component <{tag}>"
  | .unsupportedOnComponent tag name =>
    s!"<{tag}> is a component; `{name}` cannot be used on it"
  | .duplicateBinding anchor => s!"`{anchor.text}` is bound more than once"
  | .extensionAtRoot name => s!"`{name}` cannot be used on the template root"
  | .invalidDirective directive value fault =>
    s!"invalid `v-{directive}` value {Text.quote value}: {fault.message}"

inductive EvalError where
  | propertyOfNullish (property base : String)
  | notCallable (callee : Expr) (found : String)
  | missingHandler (event handler found : String)
  | foreignSnapshot
  | detachedAnchor (anchor : String) (root : NodeId)
  | directive (name : String) (cause : EvalError)

def EvalError.message : EvalError → String
  | .propertyOfNullish property base => s!"cannot read property `{property}` of {base}"
  | .notCallable callee found => s!"`{callee.text}` is not a function (found {found})"
  | .missingHandler event handler found =>
    s!"handler `{handler}` for `{event}` is not a function (found {found})"
  | .foreignSnapshot => "snapshot was produced by another template"
  | .detachedAnchor anchor root => s!"no anchor reference for `{anchor}` on root {root.text}"
  | .directive name cause => s!"`v-{name}` failed: {cause.message}"

end LiveTemplate
