import Mustache.Session
import Mustache.Text.Transform
import Mustache.Proofs.Code.Sites
import Mustache.Proofs.Code.Layering
import Mustache.Proofs.Lookup.Bindings
import Mustache.Proofs.Code.Bare
import Mustache.Proofs.Engine.Stock
import Mustache.Proofs.Engine.Faithful
import Mustache.Proofs.Render.Plain
import Mustache.Proofs.Render.Simulation
import Mustache.Proofs.Render.Inline
import Mustache.Proofs.Render.Whole
import Mustache.Proofs.Session.Transparency
import Mustache.Proofs.Output.Contents
import Mustache.Proofs.Render.Allowance
import Mustache.Proofs.Render.Owed
import Mustache.Proofs.Render.Jobs
import Mustache.Proofs.Render.Scheduled
import Mustache.Proofs.Render.Drained
import Mustache.Proofs.Render.Schedules
import Mustache.Proofs.Output.Delivery
import Mustache.Proofs.Code.Reading
import Mustache.Proofs.Render.Laxer
import Mustache.Proofs.Lookup.Optionals
import Mustache.Proofs.Render.Optionals
import Mustache.Proofs.Code.Inside
import Mustache.Proofs.Render.Mismatch
import Mustache.Proofs.Lookup.Direct
import Mustache.Proofs.Code.Recovered
import Mustache.Proofs.Code.Matching
import Mustache.Proofs.Render.Recovery
import Mustache.Proofs.Code.Similar
import Mustache.Proofs.Render.Coupling
import Mustache.Proofs.Render.Effects
import Mustache.Proofs.Output.Outline
import Mustache.Proofs.Render.Orderly
import Mustache.Proofs.Render.Tidy
import Mustache.Proofs.Render.Settling
import Mustache.Proofs.Render.Abreast
import Mustache.Proofs.Render.Together
import Mustache.Proofs.Lookup.Throughout
import Mustache.Proofs.Render.Calm
import Mustache.Proofs.Render.Enough
import Mustache.Proofs.Render.Refused
import Mustache.Proofs.Render.Unbroken
import Mustache.Proofs.Render.Bearing
import Mustache.Proofs.Render.OnlyRefused
import Mustache.Proofs.Render.Refusing
import Mustache.Proofs.Render.Invariant
import Mustache.Proofs.Render.Holding
import Mustache.Proofs.Render.Lockstep
import Mustache.Proofs.Session.Keeping
import Mustache.Proofs.Session.History
import Mustache.Proofs.Session.Renewal
import Mustache.Proofs.Lookup.Tame
import Mustache.Proofs.Render.Uniform
import Mustache.Proofs.Render.Halting
import Mustache.Proofs.Render.Watching
import Mustache.Proofs.Lookup.Validity
import Mustache.Proofs.Code.Sharing
import Mustache.Proofs.Path.Segments
import Mustache.Proofs.Path.Below
import Mustache.Proofs.Code.Adjusted
import Mustache.Proofs.Code.Parallel
import Mustache.Proofs.Text.WholeLines
import Mustache.Proofs.Code.Lexing
import Mustache.Proofs.Code.Elsewhere
import Mustache.Proofs.Code.Seams
import Mustache.Proofs.Code.Trace
import Mustache.Proofs.Code.Joined
import Mustache.Proofs.Code.CommentLine
import Mustache.Proofs.Text.Indentation
import Mustache.Proofs.Code.Alone
import Mustache.Proofs.Code.Indented
import Mustache.Proofs.Code.Enclosed
import Mustache.Proofs.Code.RawText
import Mustache.Proofs.Code.Unlined
import Mustache.Proofs.Render.Unlined
import Mustache.Proofs.Render.RawText
import Mustache.Proofs.Html.Escaped
import Mustache.Proofs.Html.Denoted
import Mustache.Proofs.Html.Decoded
import Mustache.Proofs.Code.External
import Mustache.Proofs.Code.Forms
import Mustache.Proofs.Render.Immediate
import Mustache.Proofs.Render.Verbatim
import Mustache.Proofs.Render.Forms
import Mustache.Proofs.Code.Marks
import Mustache.Proofs.Code.Positions
import Mustache.Proofs.Code.WellFormed
import Mustache.Proofs.Render.Exclusive
import Mustache.Proofs.Engine.Requests
import Mustache.Proofs.Engine.Lasting
import Mustache.Proofs.Render.Storing
import Mustache.Proofs.Session.Bounded
import Mustache.Proofs.Session.Retrying
import Mustache.Proofs.Path.Extended
import Mustache.Proofs.Value.Equality
import Mustache.Proofs.Code.Attempts
import Mustache.Proofs.Code.Calls
