import Pyramid.RoundTrip
import Pyramid.Chunks
import Pyramid.ReceiveSafe
import Pyramid.Sessions
import Pyramid.Locks
import Pyramid.Results
import Pyramid.Pieces
import Pyramid.Busy
import Pyramid.GroupIds
import Pyramid.Submissions
import Pyramid.Split
import Pyramid.FreeClient
import Pyramid.Display
import Pyramid.Confined
import Pyramid.Departures
import Pyramid.Commands
import Pyramid.Routing
import Pyramid.Pending
import Pyramid.Queueing
import Pyramid.Startup
import Pyramid.Sending
import Pyramid.Reserving
import Pyramid.Registering
import Pyramid.Counting
import Pyramid.Reading
import Pyramid.Console
import Pyramid.Listing
import Pyramid.Fields
import Pyramid.FileNames
import Pyramid.ErrorFrames
import Pyramid.Lookup
import Pyramid.Largest
import Pyramid.Histories
import Pyramid.Lexemes
import Pyramid.Grammar
import Pyramid.PieceNames
import Pyramid.Ports
import Pyramid.Scanning
import Pyramid.Memory.Fifo
import Pyramid.Service
import Pyramid.Thpool.Closing
import Pyramid.Thpool.Waiting
import Pyramid.Client
import Pyramid.Cluster
import Pyramid.Harvest
import Pyramid.Totals
import Pyramid.WholeFile
