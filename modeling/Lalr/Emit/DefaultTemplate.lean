/-! The driver that is emitted when no other template is given. -/
namespace Lalr.Emit

def defaultTemplateLines : List String :=
  [
    "// This file is generated by lalrex. Do not edit it by hand.",
    "#![allow(dead_code, unused_mut, unused_variables, clippy::all)]",
    "",
    "##HEADER##",
    "",
    "#[derive(Debug, Copy, Clone, PartialEq, Eq)]",
    "enum Action \x7b",
    "    Shift(u16),",
    "    Reduce(u16),",
    "    Accept,",
    "    Error,",
    "\x7d",
    "",
    "const ERROR_TOKEN: u16 = ##ERROR_TOKEN##;",
    "const EOF: u16 = ##EOF##;",
    "const WHITESPACE: u16 = ##WHITESPACE##;",
    "",
    "##TABLES##",
    "",
    "##DFA##",
    "",
    "##LABELS##",
    "",
    "/// The error reported when the input cannot be parsed.",
    "#[derive(Debug, Clone, PartialEq, Eq)]",
    "pub struct ParseError \x7b",
    "    /// Byte offset of the offending token.",
    "    pub offset: usize,",
    "    /// The offending token, or `None` for a byte sequence no pattern matches.",
    "    pub found: Option<&'static str>,",
    "    /// Labels of the terminals acceptable at this point.",
    "    pub expected: Vec<&'static str>,",
    "\x7d",
    "",
    "impl std::fmt::Display for ParseError \x7b",
    "    fn fmt(&self, f: &mut std::fmt::Formatter<'_>) -> std::fmt::Result \x7b",
    "        match self.found \x7b",
    "            Some(found) => write!(f, \"unexpected `\x7b\x7d' at offset \x7b\x7d\", found, self.offset)?,",
    "            None => write!(f, \"unrecognized input at offset \x7b\x7d\", self.offset)?,",
    "        \x7d",
    "        if !self.expected.is_empty() \x7b",
    "            write!(f, \", expected one of: \x7b\x7d\", self.expected.join(\", \"))?;",
    "        \x7d",
    "        Ok(())",
    "    \x7d",
    "\x7d",
    "",
    "impl std::error::Error for ParseError \x7b\x7d",
    "",
    "#[derive(Debug, Copy, Clone, PartialEq, Eq)]",
    "pub struct Token \x7b",
    "    pub terminal: u16,",
    "    pub start: usize,",
    "    pub end: usize,",
    "\x7d",
    "",
    "/// Longest-match scanner over the minimized DFA.",
    "pub struct Lexer<'input> \x7b",
    "    input: &'input str,",
    "    offset: usize,",
    "\x7d",
    "",
    "impl<'input> Lexer<'input> \x7b",
    "    pub fn new(input: &'input str) -> Self \x7b",
    "        Self \x7b input, offset: 0 \x7d",
    "    \x7d",
    "",
    "    fn longest_match(&self) -> Option<(u16, usize)> \x7b",
    "        let bytes = &self.input.as_bytes()[self.offset..];",
    "        let mut state = 0usize;",
    "        let mut last = None;",
    "        for (i, &byte) in bytes.iter().enumerate() \x7b",
    "            let class = BYTE_CLASSES[byte as usize];",
    "            match DFA_TRANSITIONS[state].iter().find(|(c, _)| *c == class) \x7b",
    "                Some(&(_, next)) => state = next as usize,",
    "                None => break,",
    "            \x7d",
    "            if let Some(terminal) = DFA_ACCEPT[state] \x7b",
    "                last = Some((terminal, i + 1));",
    "            \x7d",
    "        \x7d",
    "        last",
    "    \x7d",
    "\x7d",
    "",
    "impl<'input> Iterator for Lexer<'input> \x7b",
    "    type Item = Token;",
    "",
    "    fn next(&mut self) -> Option<Token> \x7b",
    "        loop \x7b",
    "            let start = self.offset;",
    "            if start >= self.input.len() \x7b",
    "                return None;",
    "            \x7d",
    "            match self.longest_match() \x7b",
    "                Some((WHITESPACE, len)) => self.offset += len,",
    "                Some((terminal, len)) => \x7b",
    "                    self.offset += len;",
    "                    return Some(Token \x7b",
    "                        terminal,",
    "                        start,",
    "                        end: self.offset,",
    "                    \x7d);",
    "                \x7d",
    "                None => \x7b",
    "                    let len = self.input[start..].chars().next().map_or(1, char::len_utf8);",
    "                    self.offset += len;",
    "                    return Some(Token \x7b",
    "                        terminal: ERROR_TOKEN,",
    "                        start,",
    "                        end: self.offset,",
    "                    \x7d);",
    "                \x7d",
    "            \x7d",
    "        \x7d",
    "    \x7d",
    "\x7d",
    "",
    "fn action(state: u16, terminal: u16) -> Action \x7b",
    "    let row = ACTIONS[state as usize];",
    "    match row.binary_search_by_key(&terminal, |(t, _)| *t) \x7b",
    "        Ok(i) => row[i].1,",
    "        Err(..) => match DEFAULT_REDUCE[state as usize] \x7b",
    "            Some(rule) => Action::Reduce(rule),",
    "            None => Action::Error,",
    "        \x7d,",
    "    \x7d",
    "\x7d",
    "",
    "fn goto(state: u16, nonterminal: u16) -> Option<u16> \x7b",
    "    let row = GOTOS[state as usize];",
    "    row.binary_search_by_key(&nonterminal, |(n, _)| *n)",
    "        .ok()",
    "        .map(|i| row[i].1)",
    "\x7d",
    "",
    "fn expected(state: u16) -> Vec<&'static str> \x7b",
    "    ACTIONS[state as usize]",
    "        .iter()",
    "        .filter(|(_, action)| *action != Action::Error)",
    "        .map(|(t, _)| TERMINAL_LABELS[*t as usize])",
    "        .collect()",
    "\x7d",
    "",
    "fn terminal_action(terminal: u16, text: &str) -> Value \x7b",
    "    match terminal \x7b",
    "        ##TERMINAL_ACTIONS##",
    "        _ => Value::default(),",
    "    \x7d",
    "\x7d",
    "",
    "fn reduce_action(rule: u16, mut args: Vec<Value>) -> Value \x7b",
    "    match rule \x7b",
    "        ##ACTIONS##",
    "        _ => args.into_iter().next().unwrap_or_default(),",
    "    \x7d",
    "\x7d",
    "",
    "/// Parse `input` and return the value of the start symbol.",
    "pub fn parse(input: &str) -> Result<Value, ParseError> \x7b",
    "    let mut tokens = Lexer::new(input);",
    "    let mut states: Vec<u16> = vec![0];",
    "    let mut values: Vec<Value> = vec![];",
    "",
    "    let mut lookahead = next_token(&mut tokens, input);",
    "    loop \x7b",
    "        let state = states.last().copied().unwrap_or(0);",
    "        match action(state, lookahead.terminal) \x7b",
    "            Action::Shift(next) => \x7b",
    "                states.push(next);",
    "                values.push(terminal_action(",
    "                    lookahead.terminal,",
    "                    &input[lookahead.start..lookahead.end],",
    "                ));",
    "                lookahead = next_token(&mut tokens, input);",
    "            \x7d",
    "            Action::Reduce(rule) => \x7b",
    "                let (left, len) = RULES[rule as usize];",
    "                let args = values.split_off(values.len() - len);",
    "                states.truncate(states.len() - len);",
    "                let top = states.last().copied().unwrap_or(0);",
    "                let next = goto(top, left).ok_or_else(|| error_at(top, &lookahead))?;",
    "                states.push(next);",
    "                values.push(reduce_action(rule, args));",
    "            \x7d",
    "            Action::Accept => return Ok(values.pop().unwrap_or_default()),",
    "            Action::Error => return Err(error_at(state, &lookahead)),",
    "        \x7d",
    "    \x7d",
    "\x7d",
    "",
    "fn next_token(tokens: &mut Lexer<'_>, input: &str) -> Token \x7b",
    "    tokens.next().unwrap_or(Token \x7b",
    "        terminal: EOF,",
    "        start: input.len(),",
    "        end: input.len(),",
    "    \x7d)",
    "\x7d",
    "",
    "fn error_at(state: u16, token: &Token) -> ParseError \x7b",
    "    ParseError \x7b",
    "        offset: token.start,",
    "        found: match token.terminal \x7b",
    "            ERROR_TOKEN => None,",
    "            t => Some(TERMINAL_LABELS[t as usize]),",
    "        \x7d,",
    "        expected: expected(state),",
    "    \x7d",
    "\x7d",
    "",
    "##FOOTER##"
  ]

/-- A table-driven parser with a longest-match lexer. It stops at the first error. -/
def defaultTemplate : String := String.join (defaultTemplateLines.map (· ++ "\n"))

end Lalr.Emit
