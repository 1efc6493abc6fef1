import StoryDocs.Script.Grammar.Name

/-!
# Templates and regular expressions

Both are read again from the text of the current token: a template from its opening mark, with code
between `$` braces, and a regular expression from a slash that stands where a value is expected.
-/

namespace StoryDocs
namespace Script

/-- A run of template characters: its size, what follows, and whether code follows it. -/
structure TemplateScan where
  size : Nat
  rest : List Char
  opensCode : Bool

/-- Read template characters up to the closing mark or an opening `$` brace.  Escapes that denote
nothing are allowed in tagged templates only. -/
def scanTemplate (tagged : Bool) : Nat → List Char → Nat → Option TemplateScan
  | 0, _, _ => none
  | bound + 1, s, n =>
    match s with
    | [] => none
    | '$' :: '{' :: t => some ⟨n + 2, t, true⟩
    | c :: t =>
      if c == '\x60' then some ⟨n + 1, t, false⟩
      else if c == '\\' then
        match scanEscape t with
        | some e =>
          if e.octal && !tagged then none
          else scanTemplate tagged bound e.rest (n + 1 + e.size)
        | none =>
          if tagged then
            match t with
            | [] => none
            | _ :: u => scanTemplate tagged bound u (n + 2)
          else none
      else scanTemplate tagged bound t (n + 1)

/-- Read the body of a regular expression behind its opening slash, up to the closing one. -/
def scanRegex : Bool → List Char → Nat → Option (Nat × List Char)
  | _, [], _ => none
  | inClass, '\\' :: c :: s, n => if isLineBreak c then none else scanRegex inClass s (n + 2)
  | inClass, c :: s, n =>
    if isLineBreak c || c == '\\' then none
    else if c == '/' && !inClass then some (n + 1, s)
    else scanRegex ((inClass || c == '[') && c != ']') s (n + 1)

/-- The letters that a regular expression may end with, each at most once. -/
def regexFlags : List Char :=
  ['d', 'g', 'i', 'm', 's', 'u', 'v', 'y']

namespace Grammar

/-- Read a template whose code parts are read by `part`. -/
def templateWith (tagged : Bool) (kind : Kind) (part : Parse Tree) : Parse Tree := do
  let t ← token
  require (isMark t "\x60")
  let bound := (← read).bound
  repeatFrom (([] : List Tree), t.rest, t.stop) fun (done, s, n) => do
    match scanTemplate tagged (bound + 1) s 0 with
    | none => reject
    | some scan =>
      resumeAt scan.rest (n + scan.size)
      let text : Tree :=
        .node .tagText ⟨n, n + scan.size⟩ (String.ofList (s.take scan.size)) []
      if scan.opensCode then
        let e ← part
        let close ← token
        require (isMark close "\x7d")
        return .inl (e :: text :: done, close.rest, close.stop)
      else
        return .inr (← finish kind t.start "" (text :: done).reverse)

/-- Read a template. -/
def template (rules : Rules) (tagged : Bool) : Parse Tree :=
  templateWith tagged .template (bracketed (rules .expression))

/-- Read a template of types. -/
def typeTemplate (rules : Rules) : Parse Tree :=
  templateWith false .typeTemplate (rules .type)

/-- Read a regular expression at a slash. -/
def regex : Parse Tree := do
  let t ← token
  require (isMark t "/" || isMark t "/=")
  match scanRegex false (t.here.drop 1) 1 with
  | none => reject
  | some (size, s) =>
    match scanWord ((← read).bound + 1) ⟨['/'], false, 0, s⟩ with
    | none => reject
    | some w =>
      let flags := w.name.reverse.drop 1
      faultIf (flags.any (fun f => !regexFlags.contains f) || !flags.Nodup)
      resumeAt w.rest (t.start + size + w.size)
      finish .regex t.start (String.ofList (t.here.take (size + w.size))) []

end Grammar
end Script
end StoryDocs
