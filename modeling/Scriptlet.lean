import Scriptlet.Arithmetic
import Scriptlet.Bindings
import Scriptlet.CommandLine
import Scriptlet.CompileError
import Scriptlet.Dictionary
import Scriptlet.Evaluation
import Scriptlet.Execution
import Scriptlet.Fault
import Scriptlet.Formula
import Scriptlet.Grammar.Expressions
import Scriptlet.Grammar.Items
import Scriptlet.Grammar.Rule
import Scriptlet.Grammar.Statements
import Scriptlet.Grammar.Types
import Scriptlet.Heap
import Scriptlet.Hierarchy
import Scriptlet.Limits
import Scriptlet.Machine
import Scriptlet.Main
import Scriptlet.Member
import Scriptlet.Number.Binary
import Scriptlet.Number.Fixed
import Scriptlet.Number.Integer
import Scriptlet.Number.Power
import Scriptlet.Number.Reading
import Scriptlet.Number.Shortest
import Scriptlet.Overload
import Scriptlet.Position
import Scriptlet.Program
import Scriptlet.Program.Printer
import Scriptlet.Proofs.Agreement
import Scriptlet.Proofs.CallDepth
import Scriptlet.Proofs.Casts
import Scriptlet.Proofs.Checked
import Scriptlet.Proofs.Chronicle
import Scriptlet.Proofs.Compiled.Depths
import Scriptlet.Proofs.Compiled.Expressions
import Scriptlet.Proofs.Compiled.Heights
import Scriptlet.Proofs.Compiled.Programs
import Scriptlet.Proofs.ControlFlow
import Scriptlet.Proofs.DigitGroups
import Scriptlet.Proofs.ElseIf
import Scriptlet.Proofs.ElseIfChains
import Scriptlet.Proofs.EndlessTexts
import Scriptlet.Proofs.Erasure
import Scriptlet.Proofs.ExpandedTokens
import Scriptlet.Proofs.FailingMembers
import Scriptlet.Proofs.Fits
import Scriptlet.Proofs.FormatCalls
import Scriptlet.Proofs.FrameDiscipline
import Scriptlet.Proofs.Frames
import Scriptlet.Proofs.FunctionOrder
import Scriptlet.Proofs.FunctionTables
import Scriptlet.Proofs.GlobalWrites
import Scriptlet.Proofs.GuardedGlobals
import Scriptlet.Proofs.HeapTyping
import Scriptlet.Proofs.Hierarchy
import Scriptlet.Proofs.IntegerFormats
import Scriptlet.Proofs.IntegerLiterals
import Scriptlet.Proofs.InterpolatedMeaning
import Scriptlet.Proofs.ItemBoundaries
import Scriptlet.Proofs.LastingGlobals
import Scriptlet.Proofs.Layout
import Scriptlet.Proofs.LexemeReading
import Scriptlet.Proofs.LimitsAbort
import Scriptlet.Proofs.Lockstep
import Scriptlet.Proofs.Loops
import Scriptlet.Proofs.MatchedBrackets
import Scriptlet.Proofs.Mirroring
import Scriptlet.Proofs.Mirroring.Expressions
import Scriptlet.Proofs.Mirroring.Items
import Scriptlet.Proofs.Mirroring.Statements
import Scriptlet.Proofs.Nesting
import Scriptlet.Proofs.Nesting.Expressions
import Scriptlet.Proofs.Nesting.Statements
import Scriptlet.Proofs.OperatorChains
import Scriptlet.Proofs.OrderedDictionaries
import Scriptlet.Proofs.OrderlyMembers
import Scriptlet.Proofs.Overrides
import Scriptlet.Proofs.Parts
import Scriptlet.Proofs.Pieces
import Scriptlet.Proofs.Places
import Scriptlet.Proofs.Plain
import Scriptlet.Proofs.Precedence
import Scriptlet.Proofs.Progress
import Scriptlet.Proofs.Scoping.Expressions
import Scriptlet.Proofs.Scoping.Preparation
import Scriptlet.Proofs.Scoping.Statements
import Scriptlet.Proofs.Soundness.Expressions
import Scriptlet.Proofs.Soundness.Programs
import Scriptlet.Proofs.SpelledNumbers
import Scriptlet.Proofs.StaticScoping
import Scriptlet.Proofs.StringConstants
import Scriptlet.Proofs.SwitchSections
import Scriptlet.Proofs.TemplateGrammar
import Scriptlet.Proofs.Termination
import Scriptlet.Proofs.TextPlaces
import Scriptlet.Proofs.TighterLimits
import Scriptlet.Proofs.TypeOrder
import Scriptlet.Proofs.TypeSoundness
import Scriptlet.Proofs.TypeTexts
import Scriptlet.Proofs.TypedGlobals
import Scriptlet.Proofs.TypedStore
import Scriptlet.Proofs.WholeNumbers
import Scriptlet.Registry
import Scriptlet.Sample.Menagerie
import Scriptlet.Scopes
import Scriptlet.Script
import Scriptlet.Session
import Scriptlet.Slot
import Scriptlet.Standard.Collections
import Scriptlet.Standard.Facilities
import Scriptlet.Standard.Strings
import Scriptlet.Template
import Scriptlet.Template.Rendering
import Scriptlet.Text.Blank
import Scriptlet.Text.CaseData
import Scriptlet.Text.Casing
import Scriptlet.Text.Hidden
import Scriptlet.Text.Quoted
import Scriptlet.Text.Search
import Scriptlet.Token
import Scriptlet.Token.Brackets
import Scriptlet.Token.Expansion
import Scriptlet.Token.Interpolation
import Scriptlet.Token.LexError
import Scriptlet.Token.Lexeme
import Scriptlet.Token.Lexer
import Scriptlet.Token.Numeral
import Scriptlet.Token.QuotedText
import Scriptlet.Token.Trivia
import Scriptlet.Ty
import Scriptlet.Typing
import Scriptlet.Value
import Scriptlet.Value.Conversion
import Scriptlet.World
