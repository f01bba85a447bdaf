import Synopsis.Bindings
import Synopsis.Failure
import Synopsis.Interface
import Synopsis.Invocation
import Synopsis.Leaf
import Synopsis.Matching.Basic
import Synopsis.Matching.Pattern
import Synopsis.Mode
import Synopsis.Opt
import Synopsis.Opt.Description
import Synopsis.Opt.Reading
import Synopsis.Pattern.Basic
import Synopsis.Pattern.Expansion
import Synopsis.Settings
import Synopsis.Settings.Reader
import Synopsis.Settings.Scalar
import Synopsis.Settings.Yaml
import Synopsis.Text.Blank
import Synopsis.Text.CharClass
import Synopsis.Text.DefaultIgnorable
import Synopsis.Text.GraphemeExtend
import Synopsis.Text.Json
import Synopsis.Text.Quoted
import Synopsis.Text.Split
import Synopsis.Text.Unprintable
import Synopsis.Token
import Synopsis.Tree.Basic
import Synopsis.Tree.Grammar
import Synopsis.Tree.Normal
import Synopsis.Usage
import Synopsis.Value
import Synopsis.Proofs.Groups
import Synopsis.Proofs.Grammar
import Synopsis.Proofs.Normal
import Synopsis.Proofs.Assignment
import Synopsis.Proofs.Spelling
import Synopsis.Proofs.StraightLine
import Synopsis.Proofs.Registration
import Synopsis.Proofs.Simulation
import Synopsis.Proofs.Report
import Synopsis.Proofs.Interleaving
import Synopsis.Proofs.Regrouping
import Synopsis.Proofs.Nesting
import Synopsis.Proofs.Brackets
import Synopsis.Proofs.Leniency
import Synopsis.Proofs.Separation
import Synopsis.Proofs.Printing
import Synopsis.Proofs.RoundTrip
import Synopsis.Proofs.Numbering
import Synopsis.Proofs.Shape
import Synopsis.Proofs.Composition
import Synopsis.Proofs.Descent
import Synopsis.Proofs.Lines
import Synopsis.Proofs.Shorthand
import Synopsis.Proofs.Blame
import Synopsis.Proofs.Consumption
import Synopsis.Proofs.Equations
import Synopsis.Proofs.Alternatives
import Synopsis.Proofs.Rounds
import Synopsis.Proofs.Worklist
import Synopsis.Proofs.Marking
import Synopsis.Proofs.Sharing
import Synopsis.Proofs.Idempotence
import Synopsis.Proofs.Blanks
import Synopsis.Proofs.Describing
import Synopsis.Proofs.OptionLines
import Synopsis.Proofs.Layouts
import Synopsis.Proofs.Headers
import Synopsis.Proofs.Padding
import Synopsis.Proofs.Sections
import Synopsis.Proofs.Naming
import Synopsis.Proofs.UsageLines
