import NginB.Minify.InPlace
import NginB.Minify.Selection
import NginB.Minify.Names
import NginB.Minify.Blanks
import NginB.Minify.Markup
import NginB.Minify.Words
import NginB.Minify.Comments
import NginB.Minify.Partition
import NginB.Minify.CssPartition
import NginB.Minify.JsPartition
import NginB.Minify.Stacks
import NginB.Minify.Ending
import NginB.Ttl.Uncacheable
import NginB.Minify.Content
import NginB.Minify.Arrival
import NginB.Minify.Delivery
import NginB.Minify.Special
import NginB.Minify.Acts
import NginB.Minify.Stripped
import NginB.Minify.Chain
import NginB.Minify.Nonempty
import NginB.Minify.ReadOnly
import NginB.Minify.Failure
import NginB.Program.Occurrence
import NginB.Minify.BlockComments
import NginB.Minify.TextWords
import NginB.Minify.LineBreaks
import NginB.Minify.CssTokens
import NginB.Minify.Lexer
import NginB.Minify.Literals
import NginB.Minify.ConditionalComments
import NginB.Minify.OneBuffer
import NginB.Minify.CssScan
import NginB.Minify.InvisibleComments
import NginB.Minify.JsScan
import NginB.Minify.LineComments
import NginB.Minify.TagScan
import NginB.Minify.Elements
import NginB.Minify.SelfClosed
import NginB.Minify.CacheCalls
import NginB.Minify.CdataSections
import NginB.Minify.TextSpaces
import NginB.Program.LittleEndian
import NginB.Ttl.Lifetime
import NginB.CacheInfo.CacheFile
import NginB.Program.Memory
import NginB.Coolplay.PluginStrings
import NginB.Program.Along
import NginB.Capcache.Transaction
import NginB.Minify.RegexLiterals
import NginB.Minify.TagOutput
import NginB.Minify.AttributeValues
import NginB.Program.Eraser
import NginB.Program.Restart
import NginB.Strip.Automaton
import NginB.Strip.BodyFilter
import NginB.Strip.Closings
import NginB.Strip.Pages
import NginB.Strip.TextWords
import NginB.HeadersMore.Arguments
import NginB.HeadersMore.Clearing
import NginB.HeadersMore.Commands
import NginB.HeadersMore.Levels
import NginB.HeadersMore.Phases
import NginB.HeadersMore.Pointers
import NginB.HeadersMore.Received
import NginB.HeadersMore.ContentType
import NginB.Minify.SecondPass
import NginB.Minify.HeaderFilter
import NginB.Coolplay.Inert
